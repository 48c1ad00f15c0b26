import Mathlib
import Accumulator.Proofs.Depth
import Accumulator.Proofs.SelectedRuns
import Accumulator.Proofs.Straight

/-!
# The meaning of machine code

A run of a flow program and the run of its machine code go side by side. Where the one is at the start
of a block, so is the other, and the machine then comes to a halt, or to the return address of the
function, or to a read without input, exactly if the run of the flow program does, having done the
same. If that run is not over at some depth, the machine has made at least as many steps.
-/

namespace Accumulator.Layout

open Accumulator.Flow (Id BlockId Payload Value Held Reading Activation Progress Ending)
open Machine (Data Goes Halts Starves Lasts Ends)

variable {frames : Frames} {ret : Nat → Option Cells} {m : Image} {r : Reading} {a : Activation}
  {h : Held} {x y : Data} {s : Progress} {u : Id} {k j start mid n : Nat} {items : List Item}
  {goTo : Nat → BlockId → Flow.Exec Ending} {b : BlockId} {rest : List Id}
  {res : Except Interrupt Ending × Progress}

/-- The machine, at place `start` in the code of function `k`, does what a run of depth `n` does. It
comes back two instructions behind the one whose number is in the cell for the return address. -/
def Mimics (r : Reading) (frames : Frames) (ret : Nat → Option Cells) (m : Image) (n k start : Nat)
    (x : Data) : Except Interrupt Ending × Progress → Prop
  | (.ok .stopped, s) => ∃ y, Halts m.code start x y ∧ y.input = s.world.input ∧
      y.output = s.world.output
  | (.ok .returned, s) => ∃ c, ret k = some c ∧ ∀ q, x.cells c.addr.toUInt64 = UInt64.ofNat q →
      q + 2 < 2 ^ 63 → ∃ t y, Goes m.code t start x (q + 2) y ∧ Represents frames s.world y ∧
        Keeps ret (Relation.TransGen r.program.Calls k) x y
  | (.error .noInput, s) => ∃ y, Starves m.code start x y ∧ y.input = s.world.input ∧
      y.output = s.world.output
  | (.error (.division v w), _) => division v w = none → ∀ t, Lasts m.code t start x
  | (.error .unfinished, _) => Lasts m.code n start x
  | (.error _, _) => True

/-- A program whose code is in place, with its values in registers and without recursion. -/
structure Runnable (r : Reading) (frames : Frames) (ret : Nat → Option Cells) (m : Image) : Prop where
  installed : Installed r.program frames ret m
  sound : ∀ {k : Nat} {f}, r.program.funcs[k]? = some f → f.Sound
  wellFormed : ∀ {k : Nat} {f}, r.program.funcs[k]? = some f → f.WellFormed
  inPlace : ∀ {k : Nat} {f}, r.program.funcs[k]? = some f → f.InPlace
  acyclic : ∀ k, ¬ Relation.TransGen r.program.Calls k k
  division : ∀ v w p, r.division v w = some p → division v w = some p
  size : m.code.size < 2 ^ 63

/-- The blocks that control goes to are run to depth `n`. -/
def RunsBlocks (r : Reading) (frames : Frames) (ret : Nat → Option Cells) (m : Image) (n : Nat)
    (goTo : Nat → BlockId → Flow.Exec Ending) : Prop :=
  ∀ {j g b start s x}, r.program.funcs[j]? = some g → g.Reaches b →
    m.blocks.lookup (j, b) = some start → Represents frames s.world x →
    Mimics r frames ret m n j start x ((goTo j b).run s)

lemma Mimics.before (hres : Mimics r frames ret m n k mid y res) {t : Nat}
    (hgo : Goes m.code t start x mid y) (hacyclic : ¬ Relation.TransGen r.program.Calls k k)
    (hkeep : Keeps ret (Relation.TransGen r.program.Calls k) x y) :
    Mimics r frames ret m (t + n) k start x res := by
  match res, hres with
  | (.ok .stopped, s), ⟨z, hhalts, hz⟩ => exact ⟨z, hgo.halts hhalts, hz⟩
  | (.ok .returned, s), ⟨c, hc, hback⟩ =>
    refine ⟨c, hc, fun q hq hlt => ?_⟩
    obtain ⟨t', z, hgo', hz, hkeep'⟩ := hback q (by rw [hkeep k c hc hacyclic, hq]) hlt
    exact ⟨t + t', z, hgo.trans hgo', hz,
      fun i d hd hi => (hkeep' i d hd hi).trans (hkeep i d hd hi)⟩
  | (.error .noInput, s), ⟨z, hstarves, hz⟩ => exact ⟨z, hgo.starves hstarves, hz⟩
  | (.error (.division v w), s), hlasts =>
    exact fun hnone t' => (hgo.lasts (hlasts hnone t')).mono (by omega)
  | (.error .unfinished, s), hlasts => exact hgo.lasts hlasts
  | (.error (.outside c), s), _ => trivial
  | (.error .senseless, s), _ => trivial

lemma Mimics.mono (hres : Mimics r frames ret m n k start x res) {n' : Nat} (hn : n' ≤ n) :
    Mimics r frames ret m n' k start x res := by
  match res, hres with
  | (.ok .stopped, s), hres => exact hres
  | (.ok .returned, s), hres => exact hres
  | (.error .noInput, s), hres => exact hres
  | (.error (.division v w), s), hres => exact hres
  | (.error .unfinished, s), hlasts => exact Machine.Lasts.mono hlasts hn
  | (.error (.outside c), s), _ => trivial
  | (.error .senseless, s), _ => trivial

lemma Keeps.mono {S T : Nat → Prop} (hkeep : Keeps ret S x y) (hST : ∀ i, S i → T i) :
    Keeps ret T x y :=
  fun i c hc hi => hkeep i c hc fun hS => hi (hST i hS)

lemma mimics_stop (hsel : (contextOf r frames ret a).select .stop = .ok items)
    (hm : m.Holds a.number start items) (hw : Represents frames s.world x) :
    Mimics r frames ret m n a.number start x (.ok .stopped, s) := by
  cases hsel
  exact ⟨x, Machine.halts_of_halt (hm 0 _ rfl) rfl rfl, hw.input, hw.output⟩

lemma mimics_ret (hsel : (contextOf r frames ret a).select .ret = .ok items)
    (hm : m.Holds a.number start items) (hw : Represents frames s.world x) :
    Mimics r frames ret m n a.number start x (.ok .returned, s) := by
  rw [Context.select] at hsel
  cases hret : ret a.number with
  | none =>
    simp only [hret] at hsel
    cases hsel
  | some c =>
    simp only [hret] at hsel
    cases hsel
    refine ⟨c, hret, fun q hq hlt => ?_⟩
    obtain ⟨hconst, htail⟩ := Image.holds_append.mp hm
    have hload := hconst.goes (x := x) (straight_constant rfl)
    rw [acts_constant rfl] at hload
    have hback := hload.trans (htail.goes_slice 0 3 (by simp) rfl)
    have hplace : x.cells c.addr.toUInt64 + 1 + 1 = UInt64.ofNat (q + 2) := by
      rw [hq, UInt64.add_assoc, UInt64.ofNat_add]
      rfl
    exact ⟨_, _, hback.trans (Machine.goes_jumpr (htail 3 _ rfl) rfl rfl hplace hlt),
      hw.of_same rfl rfl rfl, keeps_same _ rfl⟩

lemma instr_block {op : Machine.Op} {i p : Nat} (hb : m.blocks.lookup (k, b) = some p) :
    (m.instr k i { op := op, target := .block b }).addr = p := by
  simp only [Image.instr, Target.place?, hb, Option.getD_some]

section Ends

variable (R : Runnable r frames ret m) (hf : r.program.funcs[a.number]? = some a.func)
  (hgo : RunsBlocks r frames ret m n goTo) (hw : Represents frames s.world x)
  (hm : m.Holds a.number start items)

include R hf in
lemma place_of_reaches (hb : a.func.Reaches b) : ∃ p, m.blocks.lookup (a.number, b) = some p := by
  obtain ⟨l, hl, -⟩ := (R.wellFormed hf).closes hb
  obtain ⟨p, -, hp, -⟩ := R.installed.block hf hb hl
  exact ⟨p, hp⟩

include R hf hgo hw hm

lemma mimics_branch (hsel : (contextOf r frames ret a).select (.branch b) = .ok items)
    (hb : a.func.Reaches b) :
    Mimics r frames ret m (n + 1) a.number start x ((goTo a.number b).run s) := by
  cases hsel
  obtain ⟨p, hp⟩ := place_of_reaches R hf hb
  have hjump : Goes m.code 1 start x p x :=
    Machine.goes_jump (hm 0 _ rfl) rfl rfl (instr_block hp)
  rw [Nat.add_comm]
  exact (hgo hf hb hp hw).before hjump (R.acyclic _) (keeps_same _ rfl)

lemma mimics_branchIf {test : Flow.Test} {i : Id} {c : BlockId} {word : UInt64}
    (hsel : (contextOf r frames ret a).select (.branchIf test i b c) = .ok items)
    (hb : a.func.Reaches b) (hc : a.func.Reaches c) (hword : x.regs.a = word) :
    Mimics r frames ret m (n + 1) a.number start x
      ((goTo a.number (if test.holds word then b else c)).run s) := by
  cases hsel
  obtain ⟨p, hp⟩ := place_of_reaches R hf hb
  obtain ⟨q, hq⟩ := place_of_reaches R hf hc
  have hnot : ∀ {t}, Goes m.code t start x (start + 1) x → Goes m.code (t + 1) start x q x :=
    fun hstep => hstep.trans (Machine.goes_jump (hm 1 _ rfl) rfl rfl (instr_block hq))
  have htest : Goes m.code 1 start x (if test.holds word then p else start + 1) x := by
    have hfirst := hm 0 _ rfl
    unfold Flow.Test.holds
    by_cases hzero : test = .zero
    · simp only [if_pos hzero] at hfirst ⊢
      have hjump := Machine.goes_jzero (x := x) hfirst rfl rfl (instr_block hp)
      simpa [hword] using hjump
    · simp only [if_neg hzero] at hfirst ⊢
      have hjump := Machine.goes_jpos (x := x) hfirst rfl rfl (instr_block hp)
      simpa [hword] using hjump
  by_cases hholds : test.holds word = true
  · rw [if_pos hholds] at htest ⊢
    rw [Nat.add_comm]
    exact (hgo hf hb hp hw).before htest (R.acyclic _) (keeps_same _ rfl)
  · rw [if_neg hholds] at htest ⊢
    exact ((hgo hf hc hq hw).before (hnot htest) (R.acyclic _) (keeps_same _ rfl)).mono (by omega)

end Ends

/-- What happens to the end of a run, or interrupts it, in a function happens in its callers. -/
lemma Mimics.within (hres : Mimics r frames ret m n j mid y res) {t : Nat}
    (hgo : Goes m.code t start x mid y) (hne : res.1 ≠ .ok .returned) :
    Mimics r frames ret m (t + n) k start x res := by
  match res, hres with
  | (.ok .stopped, s), ⟨z, hhalts, hz⟩ => exact ⟨z, hgo.halts hhalts, hz⟩
  | (.ok .returned, s), _ => exact absurd rfl hne
  | (.error .noInput, s), ⟨z, hstarves, hz⟩ => exact ⟨z, hgo.starves hstarves, hz⟩
  | (.error (.division v w), s), hlasts =>
    exact fun hnone t' => (hgo.lasts (hlasts hnone t')).mono (by omega)
  | (.error .unfinished, s), hlasts => exact hgo.lasts hlasts
  | (.error (.outside c), s), _ => trivial
  | (.error .senseless, s), _ => trivial

lemma goes_opening (I : Installed r.program frames ret m) (hm : m.Holds j start (openingOf (ret j)))
    {w : World Value} (hw : Represents frames w x) :
    ∃ t y, Goes m.code t start x (start + (openingOf (ret j)).length) y ∧ Represents frames w y ∧
      (∀ c, ret j = some c → y.cells c.addr.toUInt64 = x.regs.a) ∧ Keeps ret (· = j) x y := by
  cases hret : ret j with
  | none => exact ⟨0, x, Goes.refl _ _ _, hw, by simp, keeps_same _ rfl⟩
  | some c =>
    rw [hret] at hm
    have hgo := hm.goes (x := x) (by
      rw [openingOf, List.all_append, straight_constant rfl]
      rfl)
    have hacts : acts x (openingOf (some c)) = { x.setCell c.addr.toUInt64 x.regs.a with
        regs := { x.regs with b := c.addr.toUInt64 } } := by
      rw [openingOf, acts_append, acts_constant rfl]
      rfl
    rw [hacts] at hgo
    refine ⟨_, _, hgo, ⟨fun d hd => ?_, hw.input, hw.output⟩, ?_, fun i d hd hij => ?_⟩
    · change Encodes frames (w.cells d) (Function.update x.cells _ _ _)
      rw [Function.update_of_ne (I.apart hd hret)]
      exact hw.cells d hd
    · rintro d ⟨⟩
      exact Function.update_self ..
    · have hne : d.addr.toUInt64 ≠ c.addr.toUInt64 := fun heq => hij (I.ret_inj hd hret heq)
      exact Function.update_of_ne hne ..

/-- The call puts its own place into the cell for the return address and goes to the first block. -/
lemma goes_call (I : Installed r.program frames ret m) {callee : Int} {g : Flow.Func}
    (hg : r.program.funcs[callee.toNat]? = some g)
    (hm : m.Holds k start [{ op := .strk, reg := .a }, { op := .jump, target := .func callee }])
    {w : World Value} (hw : Represents frames w x) :
    ∃ t y p, Goes m.code (t + 2) start x p y ∧ m.blocks.lookup (callee.toNat, g.entry) = some p ∧
      Represents frames w y ∧ Keeps ret (· = callee.toNat) x y ∧
      ∀ c, ret callee.toNat = some c → y.cells c.addr.toUInt64 = UInt64.ofNat start := by
  obtain ⟨p, hp, hopening, hentry⟩ := I.func hg
  have hstrk : Goes m.code 1 start x (start + 1) (x.setReg .a (UInt64.ofNat start)) :=
    Machine.goes_strk (hm 0 _ rfl) rfl rfl
  have hjump : Goes m.code 1 (start + 1) (x.setReg .a (UInt64.ofNat start)) p
      (x.setReg .a (UInt64.ofNat start)) := by
    refine Machine.goes_jump (hm 1 _ rfl) rfl rfl ?_
    simp only [Image.instr, Target.place?, hp, Option.getD_some]
  obtain ⟨t, y, hgo, hy, hcell, hkeep⟩ :=
    goes_opening I hopening (x := x.setReg .a (UInt64.ofNat start)) (hw.of_same rfl rfl rfl)
  refine ⟨t, y, _, ?_, hentry, hy, hkeep, hcell⟩
  rw [Nat.add_comm t 2]
  exact (hstrk.trans hjump).trans hgo

section Call

variable (R : Runnable r frames ret m) (hf : r.program.funcs[a.number]? = some a.func)
  (hgo : RunsBlocks r frames ret m n goTo) (hw : Represents frames s.world x)
  (hm : m.Holds a.number start items)

include R hf hgo hw hm

lemma mimics_call {callee : Int} {args : List Id}
    (hruns : a.func.Runs u) (hlive : a.func.live? u = some (.call callee args))
    (hsel : (contextOf r frames ret a).select (.call callee args) = .ok items)
    (hrest : ∀ {t y}, Represents frames t.world y →
      Mimics r frames ret m (n + 1) a.number (start + items.length) y ((r.exec goTo a rest).run t)) :
    Mimics r frames ret m (n + 1) a.number start x ((r.exec goTo a (u :: rest)).run s) := by
  rw [Context.select, Context.call, bind_eq_ok] at hsel
  obtain ⟨g, hlookup, hsel⟩ := hsel
  split at hsel
  · cases hsel
  rw [bind_eq_ok] at hsel
  obtain ⟨l, hl, hsel⟩ := hsel
  cases hsel
  obtain ⟨hcallee, hg⟩ := Flow.lookup_eq_ok.mp hlookup
  have hcalls : r.program.Calls a.number callee.toNat := by
    obtain ⟨b, code, -, hcode, hmem⟩ := hruns
    exact ⟨a.func, b, code.toArray, u, args, hf, Flow.Func.code_eq_ok.mpr hcode, by simpa using hmem,
      by rw [Int.toNat_of_nonneg hcallee]; exact Flow.Func.payload_of_live hlive⟩
  obtain ⟨hargs, hjump⟩ := Image.holds_append.mp hm
  rw [Flow.Reading.exec_call (Flow.Func.payload_of_live hlive), hlookup, Except.toOption,
    Flow.Reading.required_bind]
  rcases goes_arguments R.installed hf hg hl hargs hw with
    ⟨t, hpass⟩ | ⟨vals, t, hpass, n₁, y₁, hgo₁, hy₁, hkeep₁⟩
  · rw [Exec.run_bind_error hpass]
    exact trivial
  have hrecord : (Reading.record (.call callee.toNat vals)).run t =
    (.ok (), { t with trace := t.trace ++ [.call callee.toNat vals] }) := rfl
  rw [Exec.run_bind_ok hpass, Exec.run_bind_ok hrecord]
  obtain ⟨n₂, y₂, p, hgo₂, hplace, hy₂, hkeep₂, hcell⟩ := goes_call R.installed hg hjump hy₁
  have hbody := hgo (s := { t with trace := t.trace ++ [.call callee.toNat vals] }) hg
    Relation.ReflTransGen.refl hplace hy₂
  have henter := hgo₁.trans hgo₂
  have hkeep : Keeps ret (Relation.TransGen r.program.Calls a.number) x y₂ := by
    intro i c hi hS
    have hne : i ≠ callee.toNat := by
      rintro rfl
      exact hS (.single hcalls)
    exact (hkeep₂ i c hi hne).trans (hkeep₁ i c hi id)
  rcases hres : (goTo callee.toNat g.entry).run { t with trace := t.trace ++ [.call callee.toNat vals] }
    with ⟨e | e, z⟩ <;> rw [hres] at hbody
  · rw [Exec.run_bind_error hres]
    exact (hbody.within henter (by simp)).mono (by omega)
  · rw [Exec.run_bind_ok hres]
    cases e with
    | stopped => exact (hbody.within henter (by simp)).mono (by omega)
    | returned =>
      obtain ⟨c, hc, hback⟩ := hbody
      have hlt : start + l.length + 1 < m.code.size :=
        (Array.getElem?_eq_some_iff.mp (hjump 1 _ rfl)).1
      have hsize := R.size
      obtain ⟨n₃, y₃, hgo₃, hy₃, hkeep₃⟩ := hback _ (hcell c hc) (by omega)
      have hthere : Keeps ret (Relation.TransGen r.program.Calls a.number) x y₃ := by
        intro i d hi hS
        exact (hkeep₃ i d hi fun hS' => hS (.head hcalls hS')).trans (hkeep i d hi hS)
      have hbehind := hrest hy₃
      rw [List.length_append] at hbehind
      exact (hbehind.before (henter.trans hgo₃) (R.acyclic _) hthere).mono (by omega)

end Call

section Block

variable (R : Runnable r frames ret m) {l : List Id}

include R

lemma mimics_compute {z : Payload} (hf : r.program.funcs[a.number]? = some a.func)
    (hw : Represents frames s.world x) (hm : m.Holds a.number start items) (hz : z.computes = true)
    (hp : a.func.payload u = .ok z) (hops : ∀ d ∈ z.operands, (a.func.at? d).isSome)
    (hsel : (contextOf r frames ret a).select z = .ok items) (hneeds : h.Offers (a.func.needs z))
    (hb : Bears frames h a.values x) (hu : Fresh h u)
    (hnext : ∀ {o t y}, Represents frames t.world y →
      Bears frames (a.func.leaves u h z) (a.set u o).values y →
      Mimics r frames ret m n a.number (start + items.length) y ((r.exec goTo (a.set u o) rest).run t)) :
    Mimics r frames ret m n a.number start x ((r.exec goTo a (u :: rest)).run s) := by
  have hcomputed := evaluated_select (s := s) R.installed hf hm hw hb hu hz R.division hops hsel hneeds
  rw [Flow.Reading.exec_computes hp hz]
  rcases hres : (r.compute a z).run s with ⟨e | o, t⟩ <;> rw [hres] at hcomputed
  · rw [Exec.run_bind_error hres]
    cases e with
    | noInput => exact hcomputed
    | division v w => exact hcomputed
    | unfinished => exact hcomputed.elim
    | outside c => exact trivial
    | senseless => exact trivial
  · rw [Exec.run_bind_ok hres]
    obtain ⟨n₁, y, hgo, hy, hbears, hkeep⟩ := hcomputed
    exact ((hnext hy hbears).before hgo (R.acyclic _) (hkeep.mono fun _ => False.elim)).mono (by omega)

lemma mimics_exec (hgo : RunsBlocks r frames ret m n goTo) {pre : List Id} {parts : List (List Item)}
    (hf : r.program.funcs[a.number]? = some a.func) (hb : a.func.Reaches b)
    (hl : a.func.listing? b = some (pre ++ l))
    (hparts : List.Forall₂ (contextOf r frames ret a).Selects l parts)
    (hm : m.Holds a.number start parts.flatten) (hw : Represents frames s.world x)
    (hbears : Bears frames (a.func.held pre) a.values x) :
    Mimics r frames ret m (n + 1) a.number start x ((r.exec goTo a l).run s) := by
  induction l generalizing a pre parts start s x with
  | nil => exact trivial
  | cons u l ih =>
    cases hparts with
    | @cons _ items _ parts hitems hparts =>
      obtain ⟨z, hp, hsel⟩ := hitems
      rw [List.flatten_cons, Image.holds_append] at hm
      have hu : u ∈ pre ++ u :: l := by simp
      obtain ⟨z', hlive, -⟩ := (R.sound hf).live_of_mem hl hu
      obtain rfl : z' = z := Except.ok.inj ((Flow.Func.payload_of_live hlive).symm.trans hp)
      have hneeds := R.inPlace hf hb hl hlive
      have htarget : ∀ {c}, c ∈ z'.targets → a.func.Reaches c :=
        fun hc => (R.wellFormed hf).reaches_target hb hl hu hlive hc
      have hl' : a.func.listing? b = some ((pre ++ [u]) ++ l) := by rw [hl]; simp
      have hheld : a.func.held (pre ++ [u]) = a.func.leaves u (a.func.held pre) z' := by
        rw [Flow.Func.held_concat, Flow.Func.track_of_live hlive]
      by_cases hz : z'.computes = true
      · have hfresh : Fresh (a.func.held pre) u := by
          have hnotin : u ∉ pre := by
            have := (R.sound hf).nodup hl
            rw [List.nodup_append] at this
            exact fun hpre => this.2.2 u hpre u (by simp) rfl
          exact ⟨fun ha => hnotin (Flow.Func.produces_of_held (Or.inl ha)).1,
            fun hb => hnotin (Flow.Func.produces_of_held (Or.inr hb)).1⟩
        refine mimics_compute R hf hw hm.1 hz hp ((R.sound hf).operands hlive) hsel hneeds hbears hfresh
          fun {o t y} hy hbears' => ?_
        rw [← hheld] at hbears'
        cases o with
        | none => exact ih hf hb hl' hparts hm.2 hy hbears'
        | some val => exact ih (a := a.set u (some val)) hf hb hl' hparts hm.2 hy hbears'
      · cases z' with
        | stop =>
          rw [Flow.Reading.exec_stop hp]
          exact mimics_stop hsel hm.1 hw
        | ret =>
          rw [Flow.Reading.exec_ret hp]
          exact mimics_ret hsel hm.1 hw
        | branch c =>
          rw [Flow.Reading.exec_branch hp]
          exact mimics_branch R hf hgo hw hm.1 hsel (htarget (by simp [Payload.targets]))
        | branchIf test i c d =>
          rw [Flow.Reading.exec_branchIf hp]
          cases hword : a.word? i with
          | none => exact trivial
          | some word =>
            rw [Flow.Reading.required_bind]
            exact mimics_branchIf R hf hgo hw hm.1 hsel (htarget (by simp [Payload.targets]))
              (htarget (by simp [Payload.targets])) (encodes_word (hbears.a i hneeds) hword)
        | call callee args =>
          refine mimics_call R hf hgo hw hm.1 ⟨b, _, hb, hl, hu⟩ hlive hsel fun {t y} hy => ?_
          refine ih hf hb hl' hparts hm.2 hy ?_
          rw [hheld]
          exact ⟨by simp [Flow.Func.leaves], by simp [Flow.Func.leaves]⟩
        | _ => exact absurd rfl hz

/-- The machine runs the blocks of the program. -/
theorem runsBlocks_block (n : Nat) : RunsBlocks r frames ret m n (r.block n) := by
  induction n with
  | zero => exact fun _ _ _ _ => Machine.lasts_zero _ _ _
  | succ n ih =>
    intro k f b start s x hf hb hstart hw
    obtain ⟨l, hl, -⟩ := (R.wellFormed hf).closes hb
    obtain ⟨p, parts, hp, hparts, hm⟩ := R.installed.block hf hb hl
    obtain rfl : start = p := Option.some.inj (hstart.symm.trans hp)
    have hall : f.listing? b = some ([] ++ l) := hl
    rw [Flow.Reading.run_block_succ hf hl]
    exact mimics_exec R ih (a := { number := k, func := f }) hf hb hall hparts hm hw
      ⟨by simp [Flow.Func.held], by simp [Flow.Func.held]⟩

end Block

/-- What a machine that starts with some input does, given how the run of depth `n` of a program
goes and the world it leaves. -/
def Follows {α ν : Type} (code : Array Machine.Instr) (n : Nat) (words : List UInt64) :
    Except Interrupt α → World ν → Prop
  | .ok _, w => Ends code words none w.input w.output
  | .error .noInput, w => Ends code words (some .noInput) w.input w.output
  | .error (.division v w), _ => division v w = none →
      ∀ N, (Machine.runFor code N (.start words)).2 = some .stepLimit
  | .error .unfinished, _ => (Machine.runFor code n (.start words)).2 = some .stepLimit
  | .error _, _ => True

lemma Follows.halts {α ν : Type} {code : Array Machine.Instr} {words input : List UInt64}
    {output : Array UInt64} {e : Except Interrupt α} {w : World ν} {v : α}
    (h : Follows code n words e w) (hok : e = .ok v) (hin : w.input = input)
    (hout : w.output = output) : Ends code words none input output := by
  subst hok hin hout
  exact h

/-- What a machine does is told by how runs end, with which input left and which output. -/
lemma Follows.of_same {α β ν μ : Type} {code : Array Machine.Instr} {words : List UInt64}
    {n m : Nat} {e : Except Interrupt α} {w : World ν} {e' : Except Interrupt β} {w' : World μ}
    {φ : β → α}
    (h : Follows code m words e w) (he : e = e'.map φ) (hin : w.input = w'.input)
    (hout : w.output = w'.output) (hfin : e' = .error .unfinished → m = n) :
    Follows code n words e' w' := by
  subst he
  cases e' with
  | ok v => exact ⟨h.1, by rw [← hin, ← hout]; exact h.2⟩
  | error e =>
    cases e with
    | noInput => exact ⟨h.1, by rw [← hin, ← hout]; exact h.2⟩
    | division v v' => exact h
    | unfinished => exact hfin rfl ▸ h
    | outside c => exact trivial
    | senseless => exact trivial

lemma start_at (words : List UInt64) :
    (Machine.State.start words).At 0 (Machine.State.start words).data := ⟨rfl, rfl, rfl⟩

lemma represents_start (words : List UInt64) :
    Represents frames (World.start (.word 0) words) (Machine.State.start words).data :=
  ⟨fun _ _ => rfl, rfl, rfl⟩

/-- Where the function is one that cannot return, the machine does the same from its start. -/
lemma Mimics.follows {words : List UInt64} (hk : ret k = none)
    (hres : Mimics r frames ret m n k 0 (Machine.State.start words).data res) :
    Follows m.code n words res.1 res.2.world := by
  match res, hres with
  | (.ok .stopped, s), ⟨y, ⟨N, hhalts⟩, hin, hout⟩ =>
    obtain ⟨t, hrun, -, hdata⟩ := hhalts _ (start_at words)
    exact ⟨by simp, N, t, hrun, (congrArg Data.input hdata).trans hin,
      (congrArg Data.output hdata).trans hout⟩
  | (.ok .returned, s), ⟨c, hc, _⟩ => exact absurd (hk.symm.trans hc) (by simp)
  | (.error .noInput, s), ⟨y, ⟨N, hstarves⟩, hin, hout⟩ =>
    obtain ⟨t, hrun, hdata⟩ := hstarves _ (start_at words)
    exact ⟨by simp, N, t, hrun, (congrArg Data.input hdata).trans hin,
      (congrArg Data.output hdata).trans hout⟩
  | (.error (.division v w), s), hlasts =>
    exact fun hnone N => (hlasts hnone N).stepLimit (start_at words)
  | (.error .unfinished, s), hlasts => exact Machine.Lasts.stepLimit hlasts (start_at words)
  | (.error (.outside c), s), _ => trivial
  | (.error .senseless, s), _ => trivial

/-- The machine code of a program does what the program does. -/
theorem Runnable.follows (R : Runnable r frames ret m) (n : Nat) (words : List UInt64) :
    Follows m.code n words (r.run n words).1 (r.run n words).2.world := by
  unfold Reading.run
  cases hmain : r.program.main? with
  | none => exact trivial
  | some k =>
    obtain ⟨hstart, hret⟩ := R.installed.main hmain
    have hk : k < r.program.funcs.size := (Array.findIdx?_eq_some_iff_getElem.mp hmain).1
    have hf := Array.getElem?_eq_getElem hk
    obtain ⟨p, hp, -, hentry⟩ := R.installed.func hf
    obtain rfl : 0 = p := Option.some.inj (hstart.symm.trans hp)
    rw [hret] at hentry
    dsimp only
    rw [Flow.Reading.runFunc_some hf]
    exact (runsBlocks_block R n hf Relation.ReflTransGen.refl hentry (represents_start words)).follows hret

/-- Programs that were laid out run, if their functions are sound, keep values in registers and do not
call themselves. -/
theorem Laid.runnable {q : Program} {main : Nat} {codes : List (Nat × FuncCode)}
    (hq : Laid r.program main frames codes q)
    (hsound : ∀ {k : Nat} {f}, r.program.funcs[k]? = some f → f.Sound ∧ f.WellFormed ∧ f.InPlace)
    (hacyclic : ∀ k, ¬ Relation.TransGen r.program.Calls k k)
    (hdivision : ∀ v w p, r.division v w = some p → division v w = some p)
    (hcells : q.cellCount < 2 ^ 63) (hsize : q.code.size < 2 ^ 63) :
    Runnable r frames (retOf codes) (image q codes) where
  installed := hq.installed (fun hk => ⟨(hsound hk).1, (hsound hk).2.1⟩) hcells
  sound hk := (hsound hk).1
  wellFormed hk := (hsound hk).2.1
  inPlace hk := (hsound hk).2.2
  acyclic := hacyclic
  division := hdivision
  size := by simpa [image, Program.instrs, Program.resolve] using hsize

/-- Where functions made by edits pass all checks, do not call themselves and have their values in
registers, the machine code that is laid out for them does what they do: it halts, or asks for input
that is not there, with the same output and the same input left. Divisions are those of the machine as
long as the divisor is zero or the dividend is below 2^63. This holds of every block on the way: a
function comes back to the instruction behind the jump of its call, and all cells then stand for what
the flow program has in them, addresses that were passed for references included. -/
theorem lower_keeps_meaning {p : Flow.Program} {q : Program} (hmade : ∀ f ∈ p.funcs, f.Made)
    (hverify : ∀ f ∈ p.funcs, f.verify = .ok (.ok ()))
    (hacyclic : ∀ k, ¬ Relation.TransGen p.Calls k k) (hplace : ∀ f ∈ p.funcs, f.InPlace)
    (hlower : lower p = .ok (.ok q)) (hcells : q.cellCount < 2 ^ 63) (hsize : q.code.size < 2 ^ 63) :
    (∀ n words, Follows q.resolve.instrs n words (Reading.run ⟨p, Word.exact⟩ n words).1
        (Reading.run ⟨p, Word.exact⟩ n words).2.world) ∧
      ∃ frames ret m, m.code = q.resolve.instrs ∧ Installed p frames ret m ∧
        ∀ n, RunsBlocks ⟨p, Word.exact⟩ frames ret m n (Reading.block ⟨p, Word.exact⟩ n) := by
  obtain ⟨main, frames, codes, hlaid⟩ := lower_eq_ok.mp hlower
  have hsound : ∀ {k : Nat} {f}, p.funcs[k]? = some f → f.Sound ∧ f.WellFormed ∧ f.InPlace := by
    intro k f hk
    have hmem := Array.mem_of_getElem? hk
    have hsound := (hmade f hmem).sound.1
    exact ⟨hsound, hsound.verify_iff.mp (hverify f hmem), hplace f hmem⟩
  have R : Runnable ⟨p, Word.exact⟩ frames (retOf codes) (image q codes) :=
    hlaid.runnable (r := ⟨p, Word.exact⟩) hsound hacyclic (fun _ _ _ => division_of_exact) hcells hsize
  exact ⟨R.follows, frames, retOf codes, image q codes, rfl, R.installed, runsBlocks_block R⟩

/-- Add one to a variable that is passed by reference. -/
def increment : Flow.Func :=
  { name := "increment"
    params := [0]
    entry := 0
    blocks := #[#[1, 2, 3, 4, 5]]
    slots := #[
      { payload := .var { name := "x", kind := .param, size := 1, byRef := true }, refs := [2, 4] },
      { payload := .const 1, block := 0, refs := [3] },
      { payload := .loadIndirect 0, block := 0, refs := [3] },
      { payload := .alu .add 2 1, block := 0, refs := [4] },
      { payload := .storeIndirect 0 3, block := 0 },
      { payload := .ret, block := 0 }] }

/-- Read a number, add one to it and write it. -/
def incrementing : Flow.Func :=
  { name := "main"
    isMain := true
    locals := [0]
    entry := 0
    blocks := #[#[1, 2, 3, 4, 5, 6]]
    slots := #[
      { payload := .var { name := "n", kind := .localVar, size := 1 }, refs := [2, 3, 4] },
      { payload := .read, block := 0, refs := [2] },
      { payload := .store 0 1, block := 0 },
      { payload := .call 0 [0], block := 0 },
      { payload := .load 0, block := 0, refs := [5] },
      { payload := .write 4, block := 0 },
      { payload := .stop, block := 0 }] }

def counting : Flow.Program := { funcs := #[increment, incrementing] }

lemma forall_counting {P : Flow.Func → Prop} (h : P increment) (h' : P incrementing) :
    ∀ f ∈ counting.funcs, P f := by
  intro f hf
  simp only [counting, List.mem_toArray, List.mem_cons, List.not_mem_nil, or_false] at hf
  rcases hf with rfl | rfl
  · exact h
  · exact h'

lemma increment_made : increment.Made :=
  (((Flow.Func.Made.empty "increment" false {}).newBlock.newVars
    [{ name := "x", kind := .param, size := 1, byRef := true }]).entry 0).emit
    (show Flow.Func.emit _ 0 [.const 1, .loadIndirect 0, .alu .add 2 1, .storeIndirect 0 3, .ret] =
      .ok increment by decide)

lemma incrementing_made : incrementing.Made :=
  Flow.Func.Made.straight [{ name := "n", kind := .localVar, size := 1 }]
    [.read, .store 0 1, .call 0 [0], .load 0, .write 4, .stop] (by decide)

lemma counting_calls {k j : Nat} (h : counting.Calls k j) : j < k := by
  have hk : k < 2 := by
    obtain ⟨f, b, code, u, args, hf, -⟩ := h
    exact (Array.getElem?_eq_some_iff.mp hf).1
  interval_cases k
  · exact absurd h (Flow.Func.not_calls (f := increment) rfl (by decide))
  · obtain ⟨s, hs, args, hcall⟩ := h.slot (f := incrementing) rfl
    have hzero : ∀ s ∈ incrementing.slots.toList, s.payload.isCall = true → s.payload = .call 0 [0] := by
      decide
    have := hcall.symm.trans (hzero s hs (by rw [hcall]; rfl))
    simp only [Payload.call.injEq] at this
    omega

lemma inPlace_single {f : Flow.Func} {l : List Id} (hf : f.Sound) (hentry : f.entry = 0)
    (hsize : 0 < f.blocks.size) (hnext : f.successors 0 = .ok []) (hl : f.listing? 0 = some l)
    (h : ∀ k < l.length, ∀ u ∈ l[k]?, ∀ x ∈ f.live? u, (f.held (l.take k)).Offers (f.needs x)) :
    f.InPlace := by
  intro c pre u post x hc hlist hx
  have hmem := hf.reaches_of_reachable (Flow.reachable_single hentry hsize hnext) hc
  obtain rfl : c = 0 := by simpa using hmem
  obtain rfl : l = pre ++ u :: post := Option.some.inj (hl.symm.trans hlist)
  simpa using h pre.length (by simp) u (by simp) x hx

/-- The program reads 41 and writes 42, and so does its machine code. -/
theorem lower_keeps_meaning_counting : ∃ q, lower counting = .ok (.ok q) ∧
    Ends q.resolve.instrs [41] none [] #[42] := by
  have hlower : ∃ q, lower counting = .ok (.ok q) ∧ q.cellCount < 2 ^ 63 ∧ q.code.size < 2 ^ 63 :=
    exists_ok_of_test (by cbv)
  obtain ⟨q, hq, hcells, hsize⟩ := hlower
  have hless : ∀ {k j}, Relation.TransGen counting.Calls k j → j < k := by
    intro k j hkj
    induction hkj with
    | single h => exact counting_calls h
    | tail _ h ih => exact (counting_calls h).trans ih
  obtain ⟨hfollows, -⟩ := lower_keeps_meaning (forall_counting increment_made incrementing_made)
    (forall_counting (Flow.verify_single rfl (by decide) (by decide) rfl)
      (Flow.verify_single rfl (by decide) (by decide) rfl))
    (fun k hk => (hless hk).false)
    (forall_counting
      (inPlace_single increment_made.sound.1 rfl (by decide) (by decide) rfl (by decide))
      (inPlace_single incrementing_made.sound.1 rfl (by decide) (by decide) rfl (by decide)))
    hq hcells hsize
  have hrun := hfollows 2 [41]
  have hok : (Reading.run ⟨counting, Word.exact⟩ 2 [41]).1 = .ok .stopped := by cbv
  have hin : (Reading.run ⟨counting, Word.exact⟩ 2 [41]).2.world.input = [] := by cbv
  have hout : (Reading.run ⟨counting, Word.exact⟩ 2 [41]).2.world.output = #[42] := by cbv
  exact ⟨q, hq, hrun.halts hok hin hout⟩

end Accumulator.Layout
