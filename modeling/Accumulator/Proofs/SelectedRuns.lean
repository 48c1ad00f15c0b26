import Mathlib
import Accumulator.Proofs.Agree
import Accumulator.Proofs.Placing
import Accumulator.Proofs.Registers

/-!
# Runs of selected code

The data of the machine stands for the world of a run: each cell has the word that its value is
encoded as, addresses being those of the frames, and the two registers hold the values that are known
to be there. The code selected for an instruction then does what the instruction does, and leaves the
cells for return addresses alone.
-/

namespace Accumulator.Layout

open Accumulator.Flow (Id BlockId Payload Value Held Reading Activation Progress)
open Machine (Data Goes Starves Lasts)

variable {frames : Frames} {ret : Nat → Option Cells} {m : Image} {r : Reading} {a : Activation}
  {h h' : Held} {x y : Data} {s : Progress} {u v i : Id} {k start : Nat} {cells : Cells}
  {items : List Item} {w : World Value} {c d : Cell} {val : Value} {word : UInt64}

/-- The word that stands for a value. -/
def Encodes (frames : Frames) : Value → UInt64 → Prop
  | .word n, word => word = n
  | .addr c, word => frames.Owns c ∧ word = frames.address c
  | .nothing, _ => True

/-- The data of the machine stands for a world. -/
structure Represents (frames : Frames) (w : World Value) (x : Data) : Prop where
  cells : ∀ c, frames.Owns c → Encodes frames (w.cells c) (x.cells (frames.address c))
  input : x.input = w.input
  output : x.output = w.output

/-- The accumulator and the second register hold the values that are known to be there. -/
structure Bears (frames : Frames) (h : Held) (values : Id → Value) (x : Data) : Prop where
  a : ∀ i, h.a = some i → Encodes frames (values i) x.regs.a
  b : ∀ i, h.b = some i → Encodes frames (values i) x.regs.b

/-- The return addresses of all functions but those in `S` stay in their cells. -/
def Keeps (ret : Nat → Option Cells) (S : Nat → Prop) (x y : Data) : Prop :=
  ∀ k c, ret k = some c → ¬ S k → y.cells c.addr.toUInt64 = x.cells c.addr.toUInt64

lemma Represents.of_same (hw : Represents frames w x) (hcells : y.cells = x.cells)
    (hinput : y.input = x.input) (houtput : y.output = x.output) : Represents frames w y :=
  ⟨fun c hc => by rw [hcells]; exact hw.cells c hc, hinput.trans hw.input, houtput.trans hw.output⟩

section Cells

variable (I : Installed r.program frames ret m)

include I

lemma Represents.write (hw : Represents frames w x) (hc : frames.Owns c) (hval : Encodes frames val word)
    (hcells : y.cells = Function.update x.cells (frames.address c) word)
    (hinput : y.input = x.input) (houtput : y.output = x.output) :
    Represents frames (w.write c val) y := by
  refine ⟨fun d hd => ?_, hinput.trans hw.input, houtput.trans hw.output⟩
  rw [hcells]
  by_cases hdc : d = c
  · subst hdc
    simpa [World.write] using hval
  · have hne : frames.address d ≠ frames.address c := fun heq => hdc (I.inj hd hc heq)
    rw [Function.update_of_ne hne]
    simpa [World.write, hdc] using hw.cells d hd

lemma keeps_write (S : Nat → Prop) (hc : frames.Owns c)
    (hcells : y.cells = Function.update x.cells (frames.address c) word) : Keeps ret S x y := by
  intro k d hd _
  rw [hcells, Function.update_of_ne (I.apart hc hd).symm]

lemma owns_home (hc : frames.cells k v = .ok cells) :
    frames.Owns (Flow.home k v) ∧ frames.address (Flow.home k v) = cells.addr.toUInt64 ∧
      r.cellCount (Flow.home k v).object = cells.size.toNat ∧
      ∃ f z, r.program.funcs[k]? = some f ∧ f.varOf? v = some z ∧ cells.indirect = z.byRef := by
  obtain ⟨f, hf, z, hz, hsize, hindirect⟩ := I.suits hc
  have hv : ((v.toNat : Nat) : Int) = v := by
    have hat := Flow.Func.at?_isSome.mp (Flow.Func.at?_of_varOf? (f := f) (by rw [hz]; rfl))
    omega
  have hc' : frames.cells k ((v.toNat : Nat) : Int) = .ok cells := by rw [hv, hc]
  refine ⟨⟨cells, hc', by change 0 < _; omega⟩, ?_, ?_, f, z, hf, hz, hindirect⟩
  · simp only [Flow.home, Frames.address, hc']
    simp
  · simp only [Flow.home, Reading.cellCount, hf, hv, hz, hsize]

lemma cellCount_of_owns (hc : frames.Owns c) :
    ∃ cells, frames.cells c.object.func c.object.var = .ok cells ∧
      r.cellCount c.object = cells.size.toNat := by
  obtain ⟨cells, hcells, -⟩ := hc
  refine ⟨cells, hcells, ?_⟩
  have hcount := (owns_home I hcells).2.2.1
  rwa [Flow.home, Int.toNat_natCast] at hcount

lemma owns_element (hc : frames.Owns c) (hd : c.offset + word.toNat < r.cellCount c.object) :
    frames.Owns ⟨c.object, c.offset + word.toNat⟩ ∧
      frames.address ⟨c.object, c.offset + word.toNat⟩ = frames.address c + word := by
  obtain ⟨cells, hcells, hcount⟩ := cellCount_of_owns I hc
  refine ⟨⟨cells, hcells, by rwa [← hcount]⟩, ?_⟩
  simp only [Frames.address, hcells]
  rw [UInt64.ofNat_add, UInt64.ofNat_toNat, UInt64.add_assoc]

end Cells

/-- The registers hold no value of an instruction that was not run. -/
def Fresh (h : Held) (u : Id) : Prop := h.a ≠ some u ∧ h.b ≠ some u

lemma bears_new {o : Option Id} (hval : Encodes frames val y.regs.a)
    (ho : ∀ i, o = some i → i ≠ u ∧ Encodes frames (a.values i) y.regs.b) :
    Bears frames ⟨some u, o⟩ (a.set u (some val)).values y := by
  constructor
  · rintro i ⟨⟩
    simpa [Activation.set] using hval
  · intro i hi
    obtain ⟨hne, henc⟩ := ho i hi
    simpa [Activation.set, hne] using henc

lemma Bears.push (hb : Bears frames h a.values x) (hu : Fresh h u) (hval : Encodes frames val y.regs.a)
    (hmove : y.regs.b = x.regs.a) : Bears frames ⟨some u, h.a⟩ (a.set u (some val)).values y :=
  bears_new hval fun i hi => ⟨fun hiu => hu.1 (hiu ▸ hi), by rw [hmove]; exact hb.a i hi⟩

lemma Bears.replace (hb : Bears frames h a.values x) (hu : Fresh h u)
    (hval : Encodes frames val y.regs.a) (hkeep : y.regs.b = x.regs.b) :
    Bears frames { h with a := some u } (a.set u (some val)).values y :=
  bears_new hval fun i hi => ⟨fun hiu => hu.2 (hiu ▸ hi), by rw [hkeep]; exact hb.b i hi⟩

/-- The new value is in the accumulator, and nothing is known of the other register. -/
lemma bears_only (hval : Encodes frames val y.regs.a) :
    Bears frames ⟨some u, none⟩ (a.set u (some val)).values y :=
  bears_new hval fun _ hi => nomatch hi

lemma Bears.second (hb : Bears frames h a.values x) (hu : Fresh h u)
    (hval : Encodes frames val y.regs.b) (hkeep : y.regs.a = x.regs.a) :
    Bears frames { h with b := some u } (a.set u (some val)).values y := by
  constructor
  · intro i hi
    have hne : i ≠ u := fun hiu => hu.1 (hiu ▸ hi)
    rw [hkeep]
    simpa [Activation.set, hne] using hb.a i hi
  · rintro i ⟨⟩
    simpa [Activation.set] using hval

lemma Bears.same (hb : Bears frames h a.values x) (ha : y.regs.a = x.regs.a)
    (hb' : y.regs.b = x.regs.b) : Bears frames h a.values y :=
  ⟨fun i hi => by rw [ha]; exact hb.a i hi, fun i hi => by rw [hb']; exact hb.b i hi⟩

lemma Bears.first (hb : Bears frames h a.values x) (ha : y.regs.a = x.regs.a) :
    Bears frames { h with b := none } a.values y :=
  ⟨fun i hi => by rw [ha]; exact hb.a i hi, fun i hi => nomatch hi⟩

/-- What the code of an instruction that computes comes to: to its end with the value, the registers
being `h` then, or to where the run is interrupted. -/
def Evaluated (frames : Frames) (ret : Nat → Option Cells) (m : Image) (start stop : Nat) (x : Data)
    (h : Held) (a : Activation) (u : Id) : Except Interrupt (Option Value) × Progress → Prop
  | (.ok o, s) => ∃ n y, Goes m.code n start x stop y ∧ Represents frames s.world y ∧
      Bears frames h (a.set u o).values y ∧ Keeps ret (fun _ => False) x y
  | (.error .noInput, s) => ∃ y, Starves m.code start x y ∧ y.input = s.world.input ∧
      y.output = s.world.output
  | (.error (.division v w), _) => division v w = none → ∀ n, Lasts m.code n start x
  | (.error .unfinished, _) => False
  | (.error _, _) => True

lemma keeps_same (S : Nat → Prop) (hcells : y.cells = x.cells) : Keeps ret S x y := by
  intro k c _ _
  rw [hcells]

lemma evaluated_straight {o : Option Value} {g : Machine.Registers} (hm : m.Holds k start items)
    (hs : items.all Item.isStraight = true) (hacts : acts x items = { x with regs := g })
    (hw : Represents frames s.world x) (hb : Bears frames h (a.set u o).values { x with regs := g }) :
    Evaluated frames ret m start (start + items.length) x h a u (.ok o, s) := by
  have hgo := hm.goes (x := x) hs
  rw [hacts] at hgo
  exact ⟨_, _, hgo, hw.of_same rfl rfl rfl, hb, keeps_same _ rfl⟩

/-- What selection knows while a block is run. -/
abbrev contextOf (r : Reading) (frames : Frames) (ret : Nat → Option Cells) (a : Activation) :
    Context :=
  { program := r.program, frames := frames, number := a.number, func := a.func, ret := ret a.number }

lemma encodes_word {n : UInt64} (henc : Encodes frames (a.values i) word) (hi : a.word? i = some n) :
    word = n := by
  unfold Activation.word? at hi
  cases hval : a.values i <;> rw [hval] at hi henc <;> cases hi
  exact henc

lemma encodes_addr (henc : Encodes frames (a.values i) word) (hi : a.func.varOf? i = none)
    (hc : a.cell? i = some c) : frames.Owns c ∧ word = frames.address c := by
  rw [Activation.cell?, Activation.object?, hi] at hc
  cases hval : a.values i <;> rw [hval] at hc henc <;> cases hc
  exact henc

lemma acts_via {it : Item} {reg : Machine.Reg} (hreg : reg.isKnown = true) {l : List Item} :
    acts x (it :: constant word reg ++ l) = acts ((x.act it.op it.reg).setReg reg word) l := by
  rw [List.cons_append, acts_cons, acts_append, acts_constant hreg]

lemma straight_via {it : Item} {reg : Machine.Reg} (hit : it.isStraight = true)
    (hreg : reg.isKnown = true) {l : List Item} (hl : l.all Item.isStraight = true) :
    (it :: constant word reg ++ l).all Item.isStraight = true := by
  rw [List.cons_append, List.all_cons, List.all_append, hit, straight_constant hreg, hl]
  rfl

section Computing

variable (I : Installed r.program frames ret m) (hf : r.program.funcs[a.number]? = some a.func)

include I hf

lemma object_of_cells (hc : frames.cells a.number v = .ok cells) :
    (∃ z, a.func.varOf? v = some z ∧ cells.indirect = z.byRef) ∧
      a.object? v = some (Flow.home a.number v).object ∧ a.cell? v = some (Flow.home a.number v) := by
  obtain ⟨-, -, -, f, z, hfz, hz, hindirect⟩ := owns_home I hc
  obtain rfl := Option.some.inj (hf.symm.trans hfz)
  have hobject : a.object? v = some (Flow.home a.number v).object := by
    rw [Activation.object?, hz]
    rfl
  refine ⟨⟨z, hz, hindirect⟩, hobject, ?_⟩
  rw [Activation.cell?, hobject]
  rfl

/-- The cell behind a variable by reference has the address that the variable holds. -/
lemma behind_cases (hc : frames.cells a.number v = .ok cells) (hw : Represents frames s.world x) :
    (Reading.behind a v).run s = (.error .senseless, s) ∨
    ∃ c, (Reading.behind a v).run s = (.ok c, s) ∧ frames.Owns c ∧
      x.cells cells.addr.toUInt64 = frames.address c := by
  obtain ⟨-, hobject, -⟩ := object_of_cells I hf hc
  obtain ⟨howns, haddr, -⟩ := owns_home I hc
  have hrun : (Reading.behind a v).run s =
      (Exec.required (s.world.cells (Flow.home a.number v)).addr? : Flow.Exec Cell).run s := by
    rw [Reading.behind, hobject]
    rfl
  have henc := hw.cells _ howns
  rw [hrun]
  cases hcell : s.world.cells (Flow.home a.number v) with
  | addr c =>
    rw [hcell] at henc
    exact Or.inr ⟨c, rfl, henc.1, by rw [← haddr]; exact henc.2⟩
  | word n => exact Or.inl rfl
  | nothing => exact Or.inl rfl

omit hf in
lemma element_cases (hc : frames.Owns c) (n : UInt64) :
    (∃ d, (r.element c n).run s = (.error (.outside d), s)) ∨
    ∃ d, (r.element c n).run s = (.ok d, s) ∧ frames.Owns d ∧
      frames.address d = frames.address c + n := by
  unfold Reading.element
  dsimp only
  split
  · next hlt => exact Or.inr ⟨_, rfl, owns_element I hc hlt⟩
  · exact Or.inl ⟨_, rfl⟩

variable (hm : m.Holds a.number start items) (hw : Represents frames s.world x)
  (hb : Bears frames h a.values x) (hu : Fresh h u)

omit I hf in
include hm hw hb hu in
lemma evaluated_const {n : UInt64} (hsel : (contextOf r frames ret a).select (.const n) = .ok items) :
    Evaluated frames ret m start (start + items.length) x { h with a := some u } a u
      ((r.compute a (.const n)).run s) := by
  cases hsel
  exact evaluated_straight hm (straight_constant rfl) (acts_constant rfl) hw (hb.replace hu rfl rfl)

include hm hw hb in
lemma evaluated_elemAddr (hsel : (contextOf r frames ret a).select (.elemAddr v i) = .ok items)
    (hi : h.a = some i) :
    Evaluated frames ret m start (start + items.length) x ⟨some u, none⟩ a u
      ((r.compute a (.elemAddr v i)).run s) := by
  obtain ⟨cells, hcells, rfl⟩ := Context.address_bind_eq_ok hsel
  obtain ⟨-, hobject, -⟩ := object_of_cells I hf hcells
  obtain ⟨howns, haddr, -⟩ := owns_home I hcells
  rw [Reading.compute, hobject]
  cases hword : a.word? i with
  | none => exact trivial
  | some n =>
    have ha : x.regs.a = n := encodes_word (hb.a i hi) hword
    rcases element_cases (s := s) I howns n with ⟨d, hrun⟩ | ⟨d, hrun, hd, hplace⟩
    · exact (Exec.run_bind_error hrun).symm ▸ trivial
    · refine (Exec.run_bind_ok hrun).symm ▸ ?_
      have hacts : acts x (constant cells.addr.toUInt64 .b ++ [{ op := .add, reg := .b }]) =
          { x with regs := { x.regs with
              a := x.regs.a + cells.addr.toUInt64, b := cells.addr.toUInt64 } } := by
        rw [acts_append, acts_constant rfl]
        rfl
      refine evaluated_straight hm ?_ hacts hw (bears_only ⟨hd, ?_⟩)
      · rw [List.all_append, straight_constant rfl]
        rfl
      · rw [hplace, haddr, UInt64.add_comm, ha]

include hm hw hb hu in
lemma evaluated_elemAddrIndirect
    (hsel : (contextOf r frames ret a).select (.elemAddrIndirect v i) = .ok items)
    (hi : h.a = some i) :
    Evaluated frames ret m start (start + items.length) x ⟨some u, h.a⟩ a u
      ((r.compute a (.elemAddrIndirect v i)).run s) := by
  obtain ⟨cells, hcells, rfl⟩ := Context.address_bind_eq_ok hsel
  rw [Reading.compute]
  rcases behind_cases I hf hcells hw with hrun | ⟨c, hrun, hc, hplace⟩
  · exact (Exec.run_bind_error hrun).symm ▸ trivial
  · refine (Exec.run_bind_ok hrun).symm ▸ ?_
    cases hword : a.word? i with
    | none => exact trivial
    | some n =>
      have ha : x.regs.a = n := encodes_word (hb.a i hi) hword
      rcases element_cases (s := s) I hc n with ⟨d, hrun⟩ | ⟨d, hrun, hd, hplace'⟩
      · exact (Exec.run_bind_error hrun).symm ▸ trivial
      · refine (Exec.run_bind_ok hrun).symm ▸ ?_
        have hacts : acts x (({ op := .put, reg := .b } : Item) ::
              constant cells.addr.toUInt64 .a ++
              [{ op := .load, reg := .a }, { op := .add, reg := .b }]) =
            { x with regs := { x.regs with
                a := x.cells cells.addr.toUInt64 + x.regs.a, b := x.regs.a } } := by
          rw [acts_via rfl]
          rfl
        refine evaluated_straight hm (straight_via rfl rfl rfl) hacts hw (hb.push hu ⟨hd, ?_⟩ rfl)
        rw [hplace', ← hplace, ha]

include hm hw hb hu in
lemma evaluated_load (hsel : (contextOf r frames ret a).select (.load v) = .ok items)
    (hneeds : h.Offers (a.func.needs (.load v))) (hv : (a.func.at? v).isSome) :
    Evaluated frames ret m start (start + items.length) x (a.func.leaves u h (.load v)) a u
      ((r.compute a (.load v)).run s) := by
  rw [Context.select, Flow.Func.var?_eq hv, ok_bind] at hsel
  rw [Flow.Func.needs] at hneeds
  rw [Flow.Func.leaves, Reading.compute]
  split at hsel
  · next hvar =>
    obtain ⟨cells, hcells, rfl⟩ := Context.address_bind_eq_ok hsel
    obtain ⟨-, -, hcell⟩ := object_of_cells I hf hcells
    obtain ⟨howns, haddr, -⟩ := owns_home I hcells
    rw [if_pos hvar, hcell]
    have hacts : acts x (({ op := .put, reg := .b } : Item) :: constant cells.addr.toUInt64 .a ++
          [{ op := .load, reg := .a }]) =
        { x with regs := { x.regs with a := x.cells cells.addr.toUInt64, b := x.regs.a } } := by
      rw [acts_via rfl]
      rfl
    refine evaluated_straight hm (straight_via rfl rfl rfl) hacts hw (hb.push hu ?_ rfl)
    rw [← haddr]
    exact hw.cells _ howns
  · next hvar =>
    cases hsel
    rw [if_neg hvar] at hneeds ⊢
    cases hcell : a.cell? v with
    | none => exact trivial
    | some c =>
      obtain ⟨hc, ha⟩ := encodes_addr (hb.a v hneeds) (Option.not_isSome_iff_eq_none.mp hvar) hcell
      refine evaluated_straight (g := { x.regs with a := x.cells x.regs.a }) hm rfl rfl hw
        (hb.replace hu ?_ rfl)
      rw [ha]
      exact hw.cells _ hc

include hm hw hb hu in
lemma evaluated_loadIndirect
    (hsel : (contextOf r frames ret a).select (.loadIndirect v) = .ok items) :
    Evaluated frames ret m start (start + items.length) x ⟨some u, h.a⟩ a u
      ((r.compute a (.loadIndirect v)).run s) := by
  obtain ⟨cells, hcells, rfl⟩ := Context.address_bind_eq_ok hsel
  rw [Reading.compute]
  rcases behind_cases I hf hcells hw with hrun | ⟨c, hrun, hc, hplace⟩
  · exact (Exec.run_bind_error hrun).symm ▸ trivial
  · refine (Exec.run_bind_ok hrun).symm ▸ ?_
    have hacts : acts x (({ op := .put, reg := .b } : Item) :: constant cells.addr.toUInt64 .a ++
          [{ op := .load, reg := .a }, { op := .load, reg := .a }]) =
        { x with regs := { x.regs with
            a := x.cells (x.cells cells.addr.toUInt64), b := x.regs.a } } := by
      rw [acts_via rfl]
      rfl
    refine evaluated_straight hm (straight_via rfl rfl rfl) hacts hw (hb.push hu ?_ rfl)
    rw [hplace]
    exact hw.cells _ hc

include hm hw hb hu in
lemma evaluated_loadPair (hsel : (contextOf r frames ret a).select (.loadPair v) = .ok items) :
    Evaluated frames ret m start (start + items.length) x { h with b := some u } a u
      ((r.compute a (.loadPair v)).run s) := by
  obtain ⟨cells, hcells, rfl⟩ := Context.address_bind_eq_ok hsel
  obtain ⟨-, -, hcell⟩ := object_of_cells I hf hcells
  obtain ⟨howns, haddr, -⟩ := owns_home I hcells
  rw [Reading.compute, hcell]
  have hacts : acts x (({ op := .put, reg := .h } : Item) :: constant cells.addr.toUInt64 .a ++
        [{ op := .load, reg := .a }, { op := .put, reg := .b }, { op := .get, reg := .h }]) =
      { x with regs := { x.regs with b := x.cells cells.addr.toUInt64, h := x.regs.a } } := by
    rw [acts_via rfl]
    rfl
  refine evaluated_straight hm (straight_via rfl rfl rfl) hacts hw (hb.second hu ?_ rfl)
  rw [← haddr]
  exact hw.cells _ howns

omit I hf in
include hm hw hb in
lemma evaluated_alu {op : Flow.Op} {j : Id}
    (hr : ∀ v w p, r.division v w = some p → division v w = some p)
    (hsel : (contextOf r frames ret a).select (.alu op i j) = .ok items)
    (hi : h.a = some i) (hj : h.b = some j) :
    Evaluated frames ret m start (start + items.length) x ⟨some u, none⟩ a u
      ((r.compute a (.alu op i j)).run s) := by
  rw [Reading.compute]
  cases hright : a.word? j with
  | none => exact trivial
  | some n =>
    cases hleft : a.word? i with
    | none => exact trivial
    | some l =>
      have hl : x.regs.a = l := encodes_word (hb.a i hi) hleft
      have hn : x.regs.b = n := encodes_word (hb.b j hj) hright
      rcases goes_arithmetic hsel hm hr x s with ⟨v, t, y, hrun, hgo, hy⟩ | ⟨v, w, hrun, hlasts⟩
      · rw [hl, hn] at hrun
        refine (Exec.run_bind_ok hrun).symm ▸ ?_
        exact ⟨t, y, hgo, hw.of_same hy.cells hy.input hy.output, bears_only hy.value,
          keeps_same _ hy.cells⟩
      · rw [hl, hn] at hrun
        exact (Exec.run_bind_error hrun).symm ▸ hlasts

omit I hf in
include hm hw hb hu in
lemma evaluated_read (hsel : (contextOf r frames ret a).select .read = .ok items) :
    Evaluated frames ret m start (start + items.length) x ⟨some u, h.a⟩ a u
      ((r.compute a .read).run s) := by
  cases hsel
  have hput := hm.goes_slice (x := x) 0 1 (by simp) rfl
  have hread := hm 1 { op := .read } rfl
  have hin : (acts x [{ op := .put, reg := .b }]).input = s.world.input := hw.input
  cases hcase : s.world.input with
  | nil =>
    have hrun : (r.compute a .read).run s = (.error .noInput, s) :=
      Exec.run_bind_error (Reading.run_input_nil hcase)
    rw [hrun]
    exact ⟨_, hput.starves (Machine.starves_of_read hread rfl rfl (hin.trans hcase)), hw.input, hw.output⟩
  | cons n rest =>
    have hrun : (r.compute a .read).run s = (.ok (some (.word n)), { s with
        world := { s.world with input := rest }, trace := s.trace ++ [.read n] }) :=
      Exec.run_bind_ok (Reading.run_input_cons hcase)
    rw [hrun]
    refine ⟨_, _, hput.trans (Machine.goes_read hread rfl rfl (hin.trans hcase)), ⟨hw.cells, rfl, hw.output⟩,
      hb.push hu rfl rfl, keeps_same _ rfl⟩

omit I hf in
include hm hw hb in
lemma evaluated_write (hsel : (contextOf r frames ret a).select (.write i) = .ok items)
    (hi : h.a = some i) :
    Evaluated frames ret m start (start + items.length) x h a u ((r.compute a (.write i)).run s) := by
  cases hsel
  rw [Reading.compute]
  cases hword : a.word? i with
  | none => exact trivial
  | some n =>
    have ha : x.regs.a = n := encodes_word (hb.a i hi) hword
    refine ⟨_, _, hm.goes rfl, ⟨hw.cells, hw.input, ?_⟩, hb.same rfl rfl, keeps_same _ rfl⟩
    change x.output.push x.regs.a = s.world.output.push n
    rw [hw.output, ha]

omit hf in
include I hm hw in
lemma evaluated_store {g : Machine.Registers} (hc : frames.Owns c) (hval : Encodes frames val word)
    (hs : items.all Item.isStraight = true)
    (hacts : acts x items = { x.setCell (frames.address c) word with regs := g })
    (hb : Bears frames h' a.values { x.setCell (frames.address c) word with regs := g }) :
    Evaluated frames ret m start (start + items.length) x h' a u
      ((do Reading.put c val; return none : Flow.Exec (Option Value)).run s) := by
  have hgo := hm.goes (x := x) hs
  rw [hacts] at hgo
  exact ⟨_, _, hgo, hw.write I hc hval rfl rfl rfl, hb, keeps_write I _ hc rfl⟩

include hm hw hb in
lemma evaluated_storeTo (hsel : (contextOf r frames ret a).select (.store v i) = .ok items)
    (hneeds : h.Offers (a.func.needs (.store v i))) (hv : (a.func.at? v).isSome) :
    Evaluated frames ret m start (start + items.length) x (a.func.leaves u h (.store v i)) a u
      ((r.compute a (.store v i)).run s) := by
  rw [Context.select, Flow.Func.var?_eq hv, ok_bind] at hsel
  rw [Flow.Func.needs] at hneeds
  rw [Flow.Func.leaves, Reading.compute]
  split at hsel
  · next hvar =>
    obtain ⟨cells, hcells, rfl⟩ := Context.address_bind_eq_ok hsel
    obtain ⟨-, -, hcell⟩ := object_of_cells I hf hcells
    obtain ⟨howns, haddr, -⟩ := owns_home I hcells
    rw [if_pos hvar] at hneeds ⊢
    rw [hcell]
    have hacts : acts x (constant cells.addr.toUInt64 .b ++ [{ op := .store, reg := .b }]) =
        { x.setCell (frames.address (Flow.home a.number v)) x.regs.a with
          regs := { x.regs with b := cells.addr.toUInt64 } } := by
      rw [acts_append, acts_constant rfl, haddr]
      rfl
    refine evaluated_store I hm hw howns (hb.a i hneeds) ?_ hacts (hb.first rfl)
    rw [List.all_append, straight_constant rfl]
    rfl
  · next hvar =>
    cases hsel
    rw [if_neg hvar] at hneeds ⊢
    cases hcell : a.cell? v with
    | none => exact trivial
    | some c =>
      obtain ⟨hc, hplace⟩ := encodes_addr (hb.b v hneeds.1) (Option.not_isSome_iff_eq_none.mp hvar) hcell
      refine evaluated_store (g := x.regs) I hm hw hc (hb.a i hneeds.2) rfl ?_ (hb.same rfl rfl)
      rw [← hplace]
      rfl

include hm hw hb in
lemma evaluated_storeIndirect
    (hsel : (contextOf r frames ret a).select (.storeIndirect v i) = .ok items) (hi : h.a = some i) :
    Evaluated frames ret m start (start + items.length) x { h with b := none } a u
      ((r.compute a (.storeIndirect v i)).run s) := by
  obtain ⟨cells, hcells, rfl⟩ := Context.address_bind_eq_ok hsel
  rw [Reading.compute]
  rcases behind_cases I hf hcells hw with hrun | ⟨c, hrun, hc, hplace⟩
  · exact (Exec.run_bind_error hrun).symm ▸ trivial
  · refine (Exec.run_bind_ok hrun).symm ▸ ?_
    have hacts : acts x (({ op := .put, reg := .c } : Item) :: constant cells.addr.toUInt64 .a ++
          [{ op := .load, reg := .a }, { op := .put, reg := .b }, { op := .get, reg := .c },
            { op := .store, reg := .b }]) =
        { x.setCell (frames.address c) x.regs.a with
          regs := { x.regs with b := x.cells cells.addr.toUInt64, c := x.regs.a } } := by
      rw [acts_via rfl, ← hplace]
      rfl
    exact evaluated_store I hm hw hc (hb.a i hi) (straight_via rfl rfl rfl) hacts (hb.first rfl)

include hm hw hb hu in
lemma evaluated_select {z : Payload} (hz : z.computes = true)
    (hr : ∀ v w p, r.division v w = some p → division v w = some p)
    (hops : ∀ d ∈ z.operands, (a.func.at? d).isSome)
    (hsel : (contextOf r frames ret a).select z = .ok items) (hneeds : h.Offers (a.func.needs z)) :
    Evaluated frames ret m start (start + items.length) x (a.func.leaves u h z) a u
      ((r.compute a z).run s) := by
  cases z with
  | const n => exact evaluated_const hm hw hb hu hsel
  | elemAddr v i => exact evaluated_elemAddr I hf hm hw hb hsel hneeds
  | elemAddrIndirect v i => exact evaluated_elemAddrIndirect I hf hm hw hb hu hsel hneeds
  | store v i => exact evaluated_storeTo I hf hm hw hb hsel hneeds (hops v (by simp [Payload.operands]))
  | storeIndirect v i => exact evaluated_storeIndirect I hf hm hw hb hsel hneeds
  | load v => exact evaluated_load I hf hm hw hb hu hsel hneeds (hops v (by simp [Payload.operands]))
  | loadIndirect v => exact evaluated_loadIndirect I hf hm hw hb hu hsel
  | loadPair v => exact evaluated_loadPair I hf hm hw hb hu hsel
  | alu op i j => exact evaluated_alu hm hw hb hr hsel hneeds.2 hneeds.1
  | read => exact evaluated_read hm hw hb hu hsel
  | write i => exact evaluated_write hm hw hb hsel hneeds
  | var w => cases hsel
  | _ => cases hz

end Computing

section Passing

variable (I : Installed r.program frames ret m) (hf : r.program.funcs[a.number]? = some a.func)
  {g : Flow.Func} {j : Nat} {z : Flow.Variable} {param arg : Id} {pc ac : Cells}

include I

lemma goes_pass (hpc : frames.cells j param = .ok pc) {code l : List Item}
    (hcode : code = l ++ constant pc.addr.toUInt64 .b ++ [{ op := .store, reg := .b }])
    (hm : m.Holds k start code) (hs : l.all Item.isStraight = true) {g : Machine.Registers}
    (hacts : acts x l = { x with regs := g }) (hval : Encodes frames val g.a)
    (hw : Represents frames w x) :
    ∃ n y, Goes m.code n start x (start + code.length) y ∧
      Represents frames (w.write (Flow.home j param) val) y ∧ Keeps ret (fun _ => False) x y := by
  obtain ⟨howns, haddr, -⟩ := owns_home I hpc
  have hstraight : code.all Item.isStraight = true := by
    rw [hcode, List.all_append, List.all_append, hs, straight_constant rfl]
    rfl
  have hend : acts x code = { x.setCell (frames.address (Flow.home j param)) g.a with
      regs := { g with b := pc.addr.toUInt64 } } := by
    rw [hcode, acts_append, acts_append, hacts, acts_constant rfl, haddr]
    rfl
  have hgo := hm.goes (x := x) hstraight
  rw [hend] at hgo
  exact ⟨_, _, hgo, hw.write I howns hval rfl rfl rfl, keeps_write I _ howns rfl⟩

include hf

lemma goes_argument (hg : r.program.funcs[j]? = some g) (hz : g.varOf? param = some z)
    (hpc : frames.cells j param = .ok pc) (hac : frames.cells a.number arg = .ok ac)
    (hm : m.Holds k start (Context.argument pc ac)) (hw : Represents frames s.world x) :
    (Reading.passed a z arg).run s = (.error .senseless, s) ∨
    ∃ val, (Reading.passed a z arg).run s = (.ok val, s) ∧
      ∃ n y, Goes m.code n start x (start + (Context.argument pc ac).length) y ∧
        Represents frames (s.world.write (Flow.home j param) val) y ∧ Keeps ret (fun _ => False) x y := by
  obtain ⟨⟨va, hva, hindirect⟩, -, -⟩ := object_of_cells I hf hac
  obtain ⟨howns, haddr, -⟩ := owns_home I hac
  obtain ⟨-, -, -, g', z', hg', hz', hpindirect⟩ := owns_home I hpc
  obtain rfl := Option.some.inj (hg.symm.trans hg')
  obtain rfl := Option.some.inj (hz.symm.trans hz')
  have hvalue := hw.cells _ howns
  rw [haddr] at hvalue
  have hpassed : (Reading.passed a z arg).run s = (if z.byRef then
        if va.byRef then Reading.get (Flow.home a.number arg)
        else pure (.addr (Flow.home a.number arg))
      else if va.byRef then Reading.behind a arg >>= Reading.get
      else Reading.get (Flow.home a.number arg) : Flow.Exec Value).run s := by
    rw [Reading.passed, hva]
    rfl
  rw [hpassed]
  unfold Context.argument at hm ⊢
  rw [hpindirect, hindirect] at hm ⊢
  have hload : (constant ac.addr.toUInt64 .a ++ [({ op := .load, reg := .a } : Item)]).all
      Item.isStraight = true := by
    rw [List.all_append, straight_constant rfl]
    rfl
  have hloaded : acts x (constant ac.addr.toUInt64 .a ++ [{ op := .load, reg := .a }]) =
      { x with regs := { x.regs with a := x.cells ac.addr.toUInt64 } } := by
    rw [acts_append, acts_constant rfl]
    rfl
  cases hbz : z.byRef <;> cases hba : va.byRef <;> rw [hbz, hba] at hm
  case false.false =>
    refine Or.inr ⟨_, rfl, goes_pass (g := { x.regs with a := x.cells ac.addr.toUInt64 }) I hpc rfl hm
      ?_ ?_ hvalue hw⟩
    · exact (congrArg (List.all · Item.isStraight) (List.append_nil _)).trans hload
    · exact (congrArg (acts x) (List.append_nil _)).trans hloaded
  case true.true => exact Or.inr ⟨_, rfl, goes_pass I hpc rfl hm hload hloaded hvalue hw⟩
  case false.true =>
    rcases behind_cases I hf hac hw with hrun | ⟨c, hrun, hc, hplace⟩
    · exact Or.inl (Exec.run_bind_error hrun)
    · refine Or.inr ⟨_, Exec.run_bind_ok hrun, goes_pass (g := { x.regs with
        a := x.cells (x.cells ac.addr.toUInt64) }) I hpc rfl hm ?_ ?_ ?_ hw⟩
      · rw [List.all_append, hload]
        rfl
      · rw [acts_append, hloaded]
        rfl
      · rw [hplace]
        exact hw.cells c hc
  case true.false =>
    obtain ⟨howns', haddr', -⟩ := owns_home I hpc
    change m.Holds k start (constant pc.addr.toUInt64 .b ++ constant ac.addr.toUInt64 .a ++
      [{ op := .store, reg := .b }]) at hm
    have hend : acts x (constant pc.addr.toUInt64 .b ++ constant ac.addr.toUInt64 .a ++
        [{ op := .store, reg := .b }]) =
        { x.setCell (frames.address (Flow.home j param)) ac.addr.toUInt64 with
          regs := { x.regs with a := ac.addr.toUInt64, b := pc.addr.toUInt64 } } := by
      rw [acts_append, acts_append, acts_constant rfl, acts_constant rfl, haddr']
      rfl
    have hgo := hm.goes (x := x) (by
      rw [List.all_append, List.all_append, straight_constant rfl, straight_constant rfl]
      rfl)
    rw [hend] at hgo
    exact Or.inr ⟨_, rfl, _, _, hgo, hw.write I howns' ⟨howns, haddr.symm⟩ rfl rfl rfl,
      keeps_write I _ howns' rfl⟩

omit I hf in
lemma arguments_cons {callee : Int} {params args : List Id}
    (hitems : (contextOf r frames ret a).arguments callee (param :: params) (arg :: args) = .ok items) :
    ∃ pc ac rest, frames.cells callee.toNat param = .ok pc ∧ frames.cells a.number arg = .ok ac ∧
      (contextOf r frames ret a).arguments callee params args = .ok rest ∧
      items = Context.argument pc ac ++ rest := by
  rw [Context.arguments, bind_eq_ok] at hitems
  obtain ⟨parts, hparts, hitems⟩ := hitems
  cases hitems
  rw [List.zip_cons_cons, List.mapM_cons] at hparts
  simp only [bind_eq_ok] at hparts
  obtain ⟨part, ⟨pc, hpc, ac, hac, hpart⟩, rest, hrest, hparts⟩ := hparts
  cases hpart
  cases hparts
  exact ⟨pc, ac, rest.flatten, hpc, hac, by rw [Context.arguments, hrest]; rfl, rfl⟩

lemma goes_arguments {callee : Int} {params args : List Id}
    (hg : r.program.funcs[callee.toNat]? = some g)
    (hitems : (contextOf r frames ret a).arguments callee params args = .ok items)
    (hm : m.Holds k start items) (hw : Represents frames s.world x) :
    (∃ t, (Reading.pass a callee.toNat g params args).run s = (.error .senseless, t)) ∨
    ∃ vals t, (Reading.pass a callee.toNat g params args).run s = (.ok vals, t) ∧
      ∃ n y, Goes m.code n start x (start + items.length) y ∧ Represents frames t.world y ∧
        Keeps ret (fun _ => False) x y := by
  induction params generalizing args items start s x with
  | nil =>
    cases args with
    | nil =>
      cases hitems
      exact Or.inr ⟨_, _, rfl, 0, x, Goes.refl _ _ _, hw, keeps_same _ rfl⟩
    | cons arg args => exact Or.inl ⟨s, rfl⟩
  | cons param params ih =>
    cases args with
    | nil => exact Or.inl ⟨s, rfl⟩
    | cons arg args =>
      obtain ⟨pc, ac, rest, hpc, hac, hrest, rfl⟩ := arguments_cons hitems
      obtain ⟨hfirst, hothers⟩ := Image.holds_append.mp hm
      rw [Reading.pass]
      cases hz : g.varOf? param with
      | none => exact Or.inl ⟨s, rfl⟩
      | some z =>
        rw [Reading.required_bind]
        rcases goes_argument I hf hg hz hpc hac hfirst hw with hrun | ⟨val, hrun, n, y, hgo, hy, hkeep⟩
        · exact Or.inl ⟨s, Exec.run_bind_error hrun⟩
        · have hfill : (Reading.fill (Flow.home callee.toNat param) val).run s = (.ok (), { s with
              world := s.world.write (Flow.home callee.toNat param) val }) := rfl
          have hnext := ih (s := { s with world := s.world.write (Flow.home callee.toNat param) val })
            hrest hothers hy
          rcases hnext with ⟨t, hpass⟩ | ⟨vals, t, hpass, n', y', hgo', hy', hkeep'⟩
          · exact Or.inl ⟨t, ((Exec.run_bind_ok hrun).trans (Exec.run_bind_ok hfill)).trans
              (Exec.run_bind_error hpass)⟩
          · refine Or.inr ⟨val :: vals, t, ((Exec.run_bind_ok hrun).trans (Exec.run_bind_ok hfill)).trans
              (Exec.run_bind_ok (f := fun vals => pure (val :: vals)) hpass), n + n', y', ?_, hy',
              fun i c hi hS => (hkeep' i c hi hS).trans (hkeep i c hi hS)⟩
            rw [List.length_append, ← Nat.add_assoc]
            exact hgo.trans hgo'

end Passing

end Accumulator.Layout
