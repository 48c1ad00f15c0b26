import Mathlib
import Accumulator.Proofs.Agree
import Accumulator.Proofs.Complementing
import Accumulator.Proofs.Straight

/-!
# Complemented functions

What `Func.canonicalize` does to any function that passes its checks, however it came about. The
comparisons `eq`, `le` and `ge` that control comes to are replaced by their complements, the branches
on them exchange their targets, and nothing else changes. Every branch goes where it went, so that
all runs are the same, and a second time there is nothing left to replace.
-/

namespace Accumulator.Flow

/-- The value of a comparison of two words. -/
def Op.compared? : Op → UInt64 → UInt64 → Option UInt64
  | .eq, x, y => some (Word.ofBool (x = y))
  | .ne, x, y => some (Word.add (Word.sub x y) (Word.sub y x))
  | .lt, x, y => some (Word.sub y x)
  | .gt, x, y => some (Word.sub x y)
  | .le, x, y => some (Word.ofBool (x ≤ y))
  | .ge, x, y => some (Word.ofBool (y ≤ x))
  | _, _, _ => none

section Values

variable {op op' : Op} {x y z z' : UInt64}

lemma operate_of_compared (r : Reading) (h : op.compared? x y = some z) :
    r.operate op x y = pure z := by
  cases op with
  | eq | ne | lt | gt | le | ge =>
    obtain rfl := Option.some.inj h
    rfl
  | _ => cases h

lemma ofBool_pos {b : Bool} : 0 < Word.ofBool b ↔ b = true := by
  cases b <;> decide

lemma sub_pos : 0 < Word.sub x y ↔ y < x := by
  have hx := x.toNat_lt
  rw [UInt64.lt_iff_toNat_lt, UInt64.lt_iff_toNat_lt, Word.sub, UInt64.toNat_ofNat',
    Nat.mod_eq_of_lt (by omega), UInt64.toNat_zero]
  omega

lemma differ_pos : 0 < Word.add (Word.sub x y) (Word.sub y x) ↔ x ≠ y := by
  have hx := x.toNat_lt
  have hy := y.toNat_lt
  rw [UInt64.lt_iff_toNat_lt, Word.add, Word.sub, Word.sub, UInt64.toNat_ofNat', UInt64.toNat_ofNat',
    UInt64.toNat_ofNat', Nat.mod_eq_of_lt (a := x.toNat - y.toNat) (by omega),
    Nat.mod_eq_of_lt (a := y.toNat - x.toNat) (by omega), Nat.mod_eq_of_lt (by omega),
    UInt64.toNat_zero, ne_eq, ← UInt64.toNat_inj]
  omega

lemma compared_complement (hop : op.complement? = some op') (hz : op.compared? x y = some z)
    (hz' : op'.compared? x y = some z') : 0 < z' ↔ ¬ 0 < z := by
  cases op with
  | eq =>
    obtain rfl := Option.some.inj hop
    obtain rfl := Option.some.inj hz
    obtain rfl := Option.some.inj hz'
    rw [differ_pos, ofBool_pos, decide_eq_true_eq]
  | ge =>
    obtain rfl := Option.some.inj hop
    obtain rfl := Option.some.inj hz
    obtain rfl := Option.some.inj hz'
    rw [sub_pos, ofBool_pos, decide_eq_true_eq, UInt64.not_le]
  | le =>
    obtain rfl := Option.some.inj hop
    obtain rfl := Option.some.inj hz
    obtain rfl := Option.some.inj hz'
    rw [sub_pos, ofBool_pos, decide_eq_true_eq, UInt64.not_le]
  | _ => cases hop

/-- A test of a positive word or of zero has the opposite outcome for the complement. -/
lemma holds_complement (test : Test) (h : 0 < z' ↔ ¬ 0 < z) : test.holds z' = !test.holds z := by
  have hzero : ∀ w : UInt64, w = 0 ↔ ¬ 0 < w := by
    intro w
    rw [UInt64.lt_iff_toNat_lt, ← UInt64.toNat_inj, UInt64.toNat_zero]
    omega
  unfold Test.holds
  split
  · rw [← decide_not, decide_eq_decide, hzero, hzero, h]
  · rw [← decide_not, decide_eq_decide, h]

lemma compared?_of_complement (hop : op.complement?.isSome) (x y : UInt64) :
    ∃ op' z z', op.complement? = some op' ∧ op.compared? x y = some z ∧
      op'.compared? x y = some z' := by
  cases op with
  | eq => exact ⟨_, _, _, rfl, rfl, rfl⟩
  | ge => exact ⟨_, _, _, rfl, rfl, rfl⟩
  | le => exact ⟨_, _, _, rfl, rfl, rfl⟩
  | _ => cases hop

end Values

namespace Func

open Check

variable {f g : Func} {S : List Id} {blocks : List BlockId} {b c : BlockId} {i : Int} {s : Slot}

/-- A block that the walk goes to from another one. -/
def Successor (f : Func) (b c : BlockId) : Prop := ∃ succs, f.successors b = .ok succs ∧ c ∈ succs

lemma bounds_of_successors {succs : List BlockId} (h : f.successors b = .ok succs) :
    0 ≤ b ∧ b < f.blocks.size := by
  unfold successors terminator? at h
  rw [bind_eq_ok] at h
  obtain ⟨t, ht, -⟩ := h
  rw [bind_eq_ok] at ht
  obtain ⟨code, hcode, -⟩ := ht
  exact bounds_of_listing? (code_eq_ok.mp hcode)

lemma walk_successors
    (h : ∀ b, Relation.ReflTransGen f.Successor f.entry b → ∃ succs, f.successors b = .ok succs) :
    ∃ visited, walkFrom f.blocks.size (fun (_ : Unit) b => f.successors b) (fun _ _ => .ok ()) [] ()
        [f.entry] = .ok ((), visited) ∧
      ∀ b ∈ visited, Relation.ReflTransGen f.Successor f.entry b := by
  obtain ⟨s, visited, hwalk, -, -, -, hall⟩ :=
    walkFrom_ok (n := f.blocks.size) (fun (_ : Unit) b => f.successors b) (fun _ _ => .ok ())
      (E := f.Successor) (P := Relation.ReflTransGen f.Successor f.entry) (I := fun _ _ => True)
      (fun b hb => by
        obtain ⟨succs, hs⟩ := h b hb
        exact bounds_of_successors hs)
      (fun b c hb hc => hb.tail hc)
      (fun _ _ b hb _ _ => by
        obtain ⟨succs, hs⟩ := h b hb
        refine ⟨(), succs, rfl, trivial, hs, fun c => ⟨fun hc => ⟨succs, hs, hc⟩, ?_⟩⟩
        rintro ⟨succs', hs', hc⟩
        obtain rfl : succs = succs' := Except.ok.inj (hs.symm.trans hs')
        exact hc)
      [] () [f.entry] trivial (by simp [Relation.ReflTransGen.refl]) (by simp)
  exact ⟨visited, hwalk, fun b hb => (hall b hb).1⟩

lemma reachable_ok_of_successors
    (h : ∀ b, Relation.ReflTransGen f.Successor f.entry b → ∃ succs, f.successors b = .ok succs) :
    ∃ blocks, f.reachable = .ok blocks := by
  obtain ⟨visited, hwalk, -⟩ := walk_successors h
  refine ⟨visited.reverse, ?_⟩
  unfold reachable
  rw [hwalk]
  rfl

lemma mem_reachable (h : f.reachable = .ok blocks) :
    (∀ b ∈ blocks, ∃ succs, f.successors b = .ok succs) ∧
      ∀ b, b ∈ blocks ↔ Relation.ReflTransGen f.Successor f.entry b := by
  unfold reachable at h
  rw [bind_eq_ok] at h
  obtain ⟨v, hwalk, h⟩ := h
  obtain rfl : v.2.reverse = blocks := Except.ok.inj h
  obtain ⟨-, hentry, hclosed⟩ := walkFrom_closed hwalk
  have hsuccs : ∀ b ∈ v.2, ∃ succs, f.successors b = .ok succs ∧ ∀ c ∈ succs, c ∈ v.2 :=
    fun b hb => (hclosed b hb).resolve_left (by simp)
  have hmem : ∀ b, Relation.ReflTransGen f.Successor f.entry b → b ∈ v.2 := by
    intro b hb
    induction hb with
    | refl => exact hentry _ (by simp)
    | @tail b c _ hstep ih =>
      obtain ⟨succs, hs, hc⟩ := hstep
      obtain ⟨succs', hs', hall⟩ := hsuccs b ih
      obtain rfl : succs = succs' := Except.ok.inj (hs.symm.trans hs')
      exact hall c hc
  obtain ⟨visited, hwalk', hall⟩ := walk_successors fun b hb => by
    obtain ⟨succs, hs, -⟩ := hsuccs b (hmem b hb)
    exact ⟨succs, hs⟩
  obtain rfl : ((), visited) = v := Except.ok.inj (hwalk'.symm.trans hwalk)
  refine ⟨fun b hb => ?_, fun b => ?_⟩
  · obtain ⟨succs, hs, -⟩ := hsuccs b (List.mem_reverse.mp hb)
    exact ⟨succs, hs⟩
  · rw [List.mem_reverse]
    exact ⟨hall b, hmem b⟩

/-- A function that passes its checks, with the blocks that were checked. -/
structure Verified (f : Func) (blocks : List BlockId) : Prop where
  entry : f.entry ≠ noBlock
  reachable : f.reachable = .ok blocks
  block : ∀ b ∈ blocks, Passes (f.checkBlock b) ()
  slot : ∀ i s, f.at? i = some s → Passes (f.checkSlot blocks i s) ()

lemma verify_iff_verified : f.verify = .ok (.ok ()) ↔ ∃ blocks, Verified f blocks := by
  change Passes f.check () ↔ _
  unfold check
  rw [passes_guard, passes_bind]
  constructor
  · rintro ⟨hentry, blocks, hblocks, h⟩
    rw [passes_lift] at hblocks
    rw [passes_seq, passes_forM, check_slots] at h
    exact ⟨blocks, hentry, hblocks, h.1, h.2⟩
  · rintro ⟨blocks, h⟩
    refine ⟨h.entry, blocks, passes_lift.mpr h.reachable, ?_⟩
    rw [passes_seq, passes_forM, check_slots]
    exact ⟨h.block, h.slot⟩

lemma closes_of_checkCode {l : List Id} (hne : l ≠ []) (h : Passes (f.checkCode b l) ()) :
    f.Closes l := by
  induction l with
  | nil => exact absurd rfl hne
  | cons i rest ih =>
    rw [checkCode, passes_seq, checkPlaced_passes] at h
    obtain ⟨⟨s, hs, hdead, -, -, hterm⟩, h⟩ := h
    have hx : f.live? i = some s.payload := live?_eq_some.mpr ⟨s, hs, hdead, rfl⟩
    cases rest with
    | nil => exact ⟨s.payload, hx, by simpa using hterm⟩
    | cons j rest => exact ⟨⟨s.payload, hx, by simpa using hterm⟩, ih (by simp) h⟩

lemma checkBlock_passes :
    Passes (f.checkBlock b) () ↔ ∃ code succs, f.code b = .ok code ∧ code.isEmpty = false ∧
      Passes (f.checkCode b code.toList) () ∧ f.successors b = .ok succs ∧
      ∀ c ∈ succs, 0 ≤ c ∧ c < f.blocks.size := by
  unfold checkBlock
  simp only [passes_bind, passes_guard, passes_lift, passes_pure, passes_forIn, Bool.not_eq_true,
    not_or, not_lt, not_le, and_true]
  constructor
  · rintro ⟨code, hcode, hne, ⟨⟩, hcheck, succs, hsuccs, hall⟩
    exact ⟨code, succs, hcode, hne, hcheck, hsuccs, hall⟩
  · rintro ⟨code, succs, hcode, hne, hcheck, hsuccs, hall⟩
    exact ⟨code, hcode, hne, (), hcheck, succs, hsuccs, hall⟩

lemma Verified.code (h : Verified f blocks) (hb : b ∈ blocks) :
    ∃ l, f.listing? b = some l ∧ f.Closes l := by
  obtain ⟨code, -, hcode, hne, hcheck, -⟩ := checkBlock_passes.mp (h.block b hb)
  exact ⟨code.toList, code_eq_ok.mp hcode, closes_of_checkCode (by simpa using hne) hcheck⟩

lemma Verified.live_of_mem (h : Verified f blocks) (hb : b ∈ blocks) {l : List Id}
    (hl : f.listing? b = some l) (hi : i ∈ l) : ∃ x, f.live? i = some x := by
  obtain ⟨m, hm, hcl⟩ := h.code hb
  obtain rfl : l = m := Option.some.inj (hl.symm.trans hm)
  obtain ⟨pre, post, rfl⟩ := List.append_of_mem hi
  obtain ⟨-, hcl⟩ := (closes_append (by simp)).mp hcl
  cases post with
  | nil => exact hcl.imp fun _ hx => hx.1
  | cons j post => exact hcl.1.imp fun _ hx => hx.1

lemma Verified.operands (h : Verified f blocks) {u : Id} {x : Payload} (hx : f.live? u = some x) {d : Id}
    (hd : d ∈ x.operands) :
    ∃ t, f.at? d = some t ∧ t.dead = false ∧ t.refs.count u = x.operands.count d := by
  obtain ⟨s, hs, hdead, rfl⟩ := live?_eq_some.mp hx
  obtain ⟨t, ht, htd, hcount, -⟩ :=
    checkOperand_passes.mp (((checkSlot_live hdead).mp (h.slot u s hs)).1 d hd)
  exact ⟨t, ht, htd, hcount⟩

lemma Verified.tallied (h : Verified f blocks) : Tallied f := by
  intro d s hs u
  have huser : ∀ {x}, f.live? u = some x → d ∈ x.operands → s.refs.count u = x.operands.count d := by
    intro x hx hd
    obtain ⟨t, ht, -, hcount⟩ := h.operands hx hd
    obtain rfl : s = t := Option.some.inj (hs.symm.trans ht)
    exact hcount
  by_cases hu : u ∈ s.refs
  · have hdead : s.dead = false := by
      cases hd : s.dead with
      | false => rfl
      | true =>
        rw [(checkSlot_dead hd).mp (h.slot d s hs)] at hu
        simp at hu
    obtain ⟨x, hx, hd⟩ := checkUser_passes.mp (((checkSlot_live hdead).mp (h.slot d s hs)).2 u hu)
    rw [uses_of_live hx, huser hx hd]
  · rw [List.count_eq_zero_of_not_mem hu]
    cases hx : f.live? u with
    | none => rw [uses_of_none hx]
    | some x =>
      rw [uses_of_live hx]
      by_cases hd : d ∈ x.operands
      · have := huser hx hd
        rwa [List.count_eq_zero_of_not_mem hu] at this
      · rw [List.count_eq_zero_of_not_mem hd]

/-- The payload of a slot when the comparisons of `S` are replaced. Erased slots keep theirs. -/
def Slot.replaced (S : List Id) (i : Id) (s : Slot) : Payload :=
  if s.dead then s.payload else s.payload.complemented S i

/-- Function `g` is `f` with the comparisons of `S` replaced. -/
structure Replaced (f : Func) (S : List Id) (g : Func) : Prop where
  frame : SameFrame f g
  blocks : g.blocks = f.blocks
  slots : ∀ i, g.at? i = (f.at? i).map fun s => { s with payload := Slot.replaced S i s }

lemma Slot.replaced_keeps {α : Type} (p : Payload → α) (s : Slot)
    (h : ∀ x : Payload, p (x.complemented S i) = p x) : p (Slot.replaced S i s) = p s.payload := by
  unfold Slot.replaced
  split
  · rfl
  · exact h _

lemma replaced_nil (i : Id) (s : Slot) : Slot.replaced [] i s = s.payload :=
  Slot.replaced_keeps (fun x => x) s fun _ => Payload.complemented_nil

lemma Replaced.refl (f : Func) : Replaced f [] f := by
  refine ⟨SameFrame.refl f, rfl, fun i => ?_⟩
  cases f.at? i <;> simp [replaced_nil]

namespace Replaced

lemma at? (h : Replaced f S g) (hs : f.at? i = some s) :
    g.at? i = some { s with payload := Slot.replaced S i s } := by
  rw [h.slots, hs]
  rfl

lemma at?_cases (h : Replaced f S g) {t : Slot} (ht : g.at? i = some t) :
    ∃ s, f.at? i = some s ∧ t = { s with payload := Slot.replaced S i s } := by
  rw [h.slots] at ht
  obtain ⟨s, hs, rfl⟩ := Option.map_eq_some_iff.mp ht
  exact ⟨s, hs, rfl⟩

lemma listing? (h : Replaced f S g) (b : BlockId) : g.listing? b = f.listing? b := by
  rw [listing?_eq, listing?_eq, h.blocks]

lemma code_eq (h : Replaced f S g) (b : BlockId) : g.code b = f.code b := by
  unfold Func.code
  rw [h.blocks]

lemma live? (h : Replaced f S g) (i : Id) : g.live? i = (f.live? i).map (·.complemented S i) := by
  unfold Func.live?
  rw [h.slots]
  cases f.at? i with
  | none => rfl
  | some s => cases hd : s.dead <;> simp [hd, Slot.replaced]

lemma varOf? (h : Replaced f S g) (i : Id) : g.varOf? i = f.varOf? i := by
  rw [varOf?_eq, varOf?_eq, h.slots]
  cases f.at? i with
  | none => rfl
  | some s => exact Slot.replaced_keeps Payload.asVar s fun _ => Payload.asVar_complemented

lemma uses (h : Replaced f S g) (u d : Id) : g.uses u d = f.uses u d := by
  unfold Func.uses
  rw [h.live?]
  cases f.live? u <;> simp

lemma tallied (h : Replaced f S g) (hf : Tallied f) : Tallied g := by
  intro d t ht u
  obtain ⟨s, hs, rfl⟩ := h.at?_cases ht
  rw [h.uses]
  exact hf d s hs u

lemma cons {g' : Func} (h : Replaced f S g) (hi : i ∉ S) (hframe : SameFrame g g')
    (hblocks : g'.blocks = g.blocks) (hslots : ∀ j, g'.at? j = (g.at? j).map fun s =>
      { s with payload := Slot.replaced [i] j s }) : Replaced f (i :: S) g' := by
  refine ⟨h.frame.trans hframe, hblocks.trans h.blocks, fun j => ?_⟩
  rw [hslots, h.slots]
  cases f.at? j with
  | none => rfl
  | some s =>
    cases hd : s.dead with
    | true => simp [Slot.replaced, hd]
    | false => simp [Slot.replaced, hd, Payload.complemented_cons hi]

lemma successors (h : Replaced f S g) {succs : List BlockId} (hs : f.successors b = .ok succs) :
    ∃ succs', g.successors b = .ok succs' ∧ ∀ c, c ∈ succs' ↔ c ∈ succs := by
  unfold Func.successors terminator? at hs ⊢
  rw [h.code_eq]
  rw [bind_eq_ok] at hs
  obtain ⟨t?, ht, hs⟩ := hs
  rw [ht, ok_bind]
  cases t? with
  | none => exact ⟨succs, hs, fun _ => Iff.rfl⟩
  | some t =>
    dsimp only at hs ⊢
    by_cases hno : t = noId
    · rw [if_pos hno] at hs ⊢
      exact ⟨succs, hs, fun _ => Iff.rfl⟩
    · rw [if_neg hno, bind_eq_ok] at hs
      obtain ⟨x, hx, hs⟩ := hs
      obtain ⟨s, hslot, rfl⟩ := payload_eq_ok.mp hx
      obtain rfl : s.payload.targets = succs := Except.ok.inj hs
      have hy : g.payload t = .ok (Slot.replaced S t s) := payload_eq_ok.mpr ⟨_, h.at? hslot, rfl⟩
      rw [if_neg hno, hy, ok_bind]
      refine ⟨_, rfl, fun c => ?_⟩
      exact iff_of_eq (Slot.replaced_keeps (fun x => c ∈ x.targets) s
        fun _ => propext Payload.mem_targets_complemented)

lemma symm_successors (h : Replaced f S g) (hf : ∃ succs, f.successors b = .ok succs) :
    ∀ c, g.Successor b c ↔ f.Successor b c := by
  obtain ⟨succs, hs⟩ := hf
  obtain ⟨succs', hs', hmem⟩ := h.successors hs
  intro c
  constructor
  · rintro ⟨l, hl, hc⟩
    obtain rfl : succs' = l := Except.ok.inj (hs'.symm.trans hl)
    exact ⟨succs, hs, (hmem c).mp hc⟩
  · rintro ⟨l, hl, hc⟩
    obtain rfl : succs = l := Except.ok.inj (hs.symm.trans hl)
    exact ⟨succs', hs', (hmem c).mpr hc⟩

lemma reachable (h : Replaced f S g) (hf : f.reachable = .ok blocks) :
    ∃ blocks', g.reachable = .ok blocks' ∧ ∀ b, b ∈ blocks' ↔ b ∈ blocks := by
  obtain ⟨hsuccs, hmem⟩ := mem_reachable hf
  have hentry : g.entry = f.entry := h.frame.head.entry
  have hto : ∀ b, Relation.ReflTransGen g.Successor g.entry b →
      Relation.ReflTransGen f.Successor f.entry b := by
    intro b hb
    induction hb with
    | refl => rw [hentry]
    | tail _ hstep ih => exact ih.tail ((h.symm_successors (hsuccs _ ((hmem _).mpr ih)) _).mp hstep)
  have hfrom : ∀ b, Relation.ReflTransGen f.Successor f.entry b →
      Relation.ReflTransGen g.Successor g.entry b := by
    intro b hb
    induction hb with
    | refl => rw [hentry]
    | tail hb hstep ih => exact ih.tail ((h.symm_successors (hsuccs _ ((hmem _).mpr hb)) _).mpr hstep)
  obtain ⟨blocks', hg⟩ := reachable_ok_of_successors (f := g) fun b hb => by
    obtain ⟨succs, hs⟩ := hsuccs b ((hmem b).mpr (hto b hb))
    obtain ⟨succs', hs', -⟩ := h.successors hs
    exact ⟨succs', hs'⟩
  refine ⟨blocks', hg, fun b => ?_⟩
  rw [(mem_reachable hg).2, hmem]
  exact ⟨hto b, hfrom b⟩

lemma checkPlaced (h : Replaced f S g) {last : Bool} (hf : Passes (f.checkPlaced b i last) ()) :
    Passes (g.checkPlaced b i last) () := by
  obtain ⟨s, hs, hdead, hb, hvar, hterm⟩ := checkPlaced_passes.mp hf
  refine checkPlaced_passes.mpr ⟨_, h.at? hs, hdead, hb, ?_, ?_⟩
  · rw [← Payload.asVar_eq_none] at hvar ⊢
    rw [← hvar]
    exact Slot.replaced_keeps Payload.asVar s fun _ => Payload.asVar_complemented
  · rw [← hterm]
    exact Slot.replaced_keeps Payload.isTerminal s fun _ => Payload.isTerminal_complemented

lemma checkCode (h : Replaced f S g) {l : List Id} (hf : Passes (f.checkCode b l) ()) :
    Passes (g.checkCode b l) () := by
  induction l with
  | nil => exact hf
  | cons i rest ih =>
    rw [Func.checkCode, passes_seq] at hf ⊢
    exact ⟨h.checkPlaced hf.1, ih hf.2⟩

lemma checkBlock (h : Replaced f S g) (hf : Passes (f.checkBlock b) ()) :
    Passes (g.checkBlock b) () := by
  obtain ⟨code, succs, hcode, hne, hcheck, hsuccs, hall⟩ := checkBlock_passes.mp hf
  obtain ⟨succs', hsuccs', hmem⟩ := h.successors hsuccs
  refine checkBlock_passes.mpr ⟨code, succs', (h.code_eq b).trans hcode, hne, h.checkCode hcheck,
    hsuccs', fun c hc => ?_⟩
  rw [h.blocks]
  exact hall c ((hmem c).mp hc)

lemma index? (h : Replaced f S g) {blocks' : List BlockId} (hmem : ∀ b, b ∈ blocks' ↔ b ∈ blocks)
    (i : Id) : g.index? blocks' i = f.index? blocks i := by
  have hslot : g.slots[i.toNat]? = f.slots[i.toNat]?.map fun s =>
      { s with payload := Slot.replaced S i.toNat s } := by
    have := h.slots (i.toNat : Int)
    rwa [at?_eq, at?_eq, if_pos (Int.natCast_nonneg _), if_pos (Int.natCast_nonneg _),
      Int.toNat_natCast] at this
  unfold Func.index?
  rw [hslot, h.blocks]
  cases f.slots[i.toNat]? with
  | none => rfl
  | some s => simp [hmem]

lemma checkSlot (h : Replaced f S g) {blocks' : List BlockId}
    (hmem : ∀ b, b ∈ blocks' ↔ b ∈ blocks) (hf : Passes (f.checkSlot blocks i s) ()) :
    Passes (g.checkSlot blocks' i { s with payload := Slot.replaced S i s }) () := by
  have hops : (Slot.replaced S i s).operands = s.payload.operands :=
    Slot.replaced_keeps Payload.operands s fun _ => Payload.operands_complemented
  cases hdead : s.dead with
  | true =>
    rw [checkSlot_dead hdead] at hf
    exact (checkSlot_dead rfl).mpr hf
  | false =>
    rw [checkSlot_live hdead] at hf
    rw [checkSlot_live rfl]
    refine ⟨fun op hop => ?_, fun user huser => ?_⟩
    · dsimp only at hop
      rw [hops] at hop
      obtain ⟨d, hd, hdd, hcount, horder⟩ := checkOperand_passes.mp (hf.1 op hop)
      refine checkOperand_passes.mpr ⟨_, h.at? hd, hdd, ?_, checkOrder_passes.mpr ?_⟩
      · dsimp only
        rw [hops]
        exact hcount
      · rw [h.index? hmem, h.index? hmem]
        refine (checkOrder_passes.mp horder).imp_left ?_
        rintro ⟨v, hv⟩
        refine ⟨v, ?_⟩
        dsimp only
        unfold Slot.replaced
        rw [hv]
        exact ite_self _
    · obtain ⟨x, hx, hi⟩ := checkUser_passes.mp (hf.2 user huser)
      exact checkUser_passes.mpr ⟨x.complemented S user, by rw [h.live?, hx]; rfl, by simpa using hi⟩

lemma verified (h : Replaced f S g) (hf : Verified f blocks) :
    ∃ blocks', Verified g blocks' ∧ ∀ b, b ∈ blocks' ↔ b ∈ blocks := by
  obtain ⟨blocks', hg, hmem⟩ := h.reachable hf.reachable
  refine ⟨blocks', ⟨?_, hg, fun b hb => h.checkBlock (hf.block b ((hmem b).mp hb)), ?_⟩, hmem⟩
  · rw [h.frame.head.entry]
    exact hf.entry
  · intro i t ht
    obtain ⟨s, hs, rfl⟩ := h.at?_cases ht
    exact h.checkSlot hmem (hf.slot i s hs)

end Replaced

/-- A comparison that the machine cannot test. -/
def Untestable (f : Func) (i : Id) : Prop :=
  ∃ op l r, f.live? i = some (.alu op l r) ∧ op.complement?.isSome

/-- An instruction that only branches use. -/
def OnlyTested (f : Func) (i : Id) : Prop :=
  ∀ u x, f.live? u = some x → i ∈ x.operands → x.isBranchIf = true

lemma compares_of_complement {op : Op} (h : op.complement?.isSome) : op.isRelational = true := by
  cases op <;> first | rfl | cases h

lemma branches_of_check {us : List Id} (h : us.forM f.checkBranch = .ok ()) :
    ∀ u ∈ us, ∃ x, f.payload u = .ok x ∧ x.isBranchIf = true := by
  induction us with
  | nil => simp
  | cons u us ih =>
    change (f.checkBranch u >>= fun _ => us.forM f.checkBranch) = .ok () at h
    rw [bind_eq_ok] at h
    obtain ⟨⟨⟩, hu, h⟩ := h
    unfold checkBranch at hu
    rw [bind_eq_ok] at hu
    obtain ⟨x, hx, hu⟩ := hu
    have hbranch : x.isBranchIf = true := by
      cases x with
      | branchIf t c a b => rfl
      | _ => cases hu
    intro v hv
    rcases List.mem_cons.mp hv with rfl | hv
    · exact ⟨x, hx, hbranch⟩
    · exact ih h v hv

lemma onlyTested_of_complementAt (hf : Tallied f) {x : Payload} (hx : f.live? i = some x)
    (hc : x.compares = true) {r : Option Func} (h : f.complementAt i = .ok r) : f.OnlyTested i := by
  obtain ⟨s, hs, -, rfl⟩ := live?_eq_some.mp hx
  obtain ⟨op, left, right, hpay⟩ : ∃ op l r, s.payload = .alu op l r := by
    cases hp : s.payload <;> simp [hp, Payload.compares] at hc ⊢
  have hrel : op.isRelational = true := by
    rw [hpay] at hc
    exact hc
  unfold complementAt at h
  rw [slot_eq_ok.mpr hs, ok_bind] at h
  simp only [hpay, hrel, if_true] at h
  rw [bind_eq_ok] at h
  obtain ⟨⟨⟩, hcheck, -⟩ := h
  intro u y hy hi
  obtain ⟨z, hz, hbranch⟩ := branches_of_check hcheck u ((hf.mem_refs_iff hs).mpr ⟨y, hy, hi⟩)
  obtain rfl : y = z := Except.ok.inj ((payload_of_live hy).symm.trans hz)
  exact hbranch

lemma Replaced.onlyTested (h : Replaced f S g) : g.OnlyTested i ↔ f.OnlyTested i := by
  constructor
  · intro hg u x hx hi
    have := hg u (x.complemented S u) (by rw [h.live?, hx]; rfl) (by simpa using hi)
    simpa using this
  · intro hf u y hy hi
    rw [h.live?] at hy
    obtain ⟨x, hx, rfl⟩ := Option.map_eq_some_iff.mp hy
    simpa using hf u x hx (by simpa using hi)

/-- What is done at one instruction: it breaks, or there is nothing to replace, or the comparison is
replaced. -/
lemma Replaced.complementAt (h : Replaced f S g) (hf : Tallied f) {x : Payload}
    (hx : f.live? i = some x) :
    (∃ e, g.complementAt i = .error e) ∨
      (g.complementAt i = .ok none ∧ (f.Untestable i → i ∈ S) ∧
        (x.compares = true → f.OnlyTested i)) ∨
      ∃ g', g.complementAt i = .ok (some g') ∧ f.Untestable i ∧ i ∉ S ∧ f.OnlyTested i ∧
        Replaced f (i :: S) g' := by
  have hy : g.live? i = some (x.complemented S i) := by
    rw [h.live?, hx]
    rfl
  cases hc : x.compares with
  | false =>
    refine Or.inr (Or.inl ⟨complementAt_of_not hy (by simpa using hc), ?_, by simp⟩)
    rintro ⟨op, l, r, hop, hsome⟩
    obtain rfl := Option.some.inj (hx.symm.trans hop)
    exact absurd (compares_of_complement hsome) (by rw [← Bool.not_eq_true] at hc; exact hc)
  | true =>
    cases hres : g.complementAt i with
    | error e => exact Or.inl ⟨e, rfl⟩
    | ok res =>
      right
      have htested := onlyTested_of_complementAt (h.tallied hf) hy (by simpa using hc) hres
      obtain ⟨op, l, r, rfl⟩ : ∃ op l r, x = .alu op l r := by
        cases x <;> simp [Payload.compares] at hc ⊢
      have hrel : op.isRelational = true := hc
      by_cases hi : i ∈ S
      · have hy' : g.live? i = some (.alu (op.complement?.getD op) l r) := by
          rw [hy, Payload.complemented, if_pos hi]
        rcases complementAt_slots (h.tallied hf) hy'
          (by rw [Payload.complement?_getD_isRelational]; exact hrel) htested with
          ⟨-, hnone⟩ | ⟨g', hsome, -⟩
        · exact Or.inl ⟨hres.symm.trans hnone, fun _ => hi, fun _ => h.onlyTested.mp htested⟩
        · rw [Payload.complement?_getD_none] at hsome
          cases hsome
      · have hy' : g.live? i = some (.alu op l r) := by
          rw [hy, Payload.complemented, if_neg hi]
        rcases complementAt_slots (h.tallied hf) hy' hrel htested with
          ⟨hop, hnone⟩ | ⟨g', hsome, hok, hframe, hblocks, hslots⟩
        · refine Or.inl ⟨hres.symm.trans hnone, ?_, fun _ => h.onlyTested.mp htested⟩
          rintro ⟨op', l', r', hop', hsome⟩
          obtain ⟨⟩ := Option.some.inj (hx.symm.trans hop')
          rw [hop] at hsome
          cases hsome
        · exact Or.inr ⟨g', hres.symm.trans hok, ⟨op, l, r, hx, hsome⟩, hi, h.onlyTested.mp htested,
            h.cons hi hframe hblocks hslots⟩

lemma Replaced.code (h : Replaced f S g) (hf : Tallied f) (hS : S.Nodup) {l : List Id}
    (hl : ∀ i ∈ l, ∃ x, f.live? i = some x) :
    (∃ e, l.foldlM (fun (n, f) id => do
        match ← f.complementAt id with
        | some f => return (n + 1, f)
        | none => return (n, f)) (S.length, g) = .error e) ∨
      ∃ g' S', l.foldlM (fun (n, f) id => do
          match ← f.complementAt id with
          | some f => return (n + 1, f)
          | none => return (n, f)) (S.length, g) = .ok (S'.length, g') ∧
        Replaced f S' g' ∧ S'.Nodup ∧ (∀ i, i ∈ S' ↔ i ∈ S ∨ i ∈ l ∧ f.Untestable i) ∧
        ∀ i ∈ l, ∀ x, f.live? i = some x → x.compares = true → f.OnlyTested i := by
  induction l generalizing g S with
  | nil => exact Or.inr ⟨g, S, rfl, h, hS, by simp, by simp⟩
  | cons i l ih =>
    obtain ⟨x, hx⟩ := hl i (by simp)
    have hl' : ∀ j ∈ l, ∃ x, f.live? j = some x := fun j hj => hl j (by simp [hj])
    have htested : (x.compares = true → f.OnlyTested i) →
        (∀ j ∈ l, ∀ x, f.live? j = some x → x.compares = true → f.OnlyTested j) →
        ∀ j ∈ i :: l, ∀ x, f.live? j = some x → x.compares = true → f.OnlyTested j := by
      intro hi hrest j hj y hy hc
      rcases List.mem_cons.mp hj with rfl | hj
      · obtain rfl := Option.some.inj (hx.symm.trans hy)
        exact hi hc
      · exact hrest j hj y hy hc
    rw [List.foldlM_cons]
    rcases h.complementAt hf hx with ⟨e, he⟩ | ⟨hok, hdone, hi⟩ | ⟨g₁, hok, hun, hnew, hi, h₁⟩
    · exact Or.inl ⟨e, by simp only [he, error_bind]⟩
    · simp only [hok, ok_bind]
      refine (ih h hS hl').imp_right ?_
      rintro ⟨g', S', hfold, h', hnodup, hmem, hrest⟩
      refine ⟨g', S', hfold, h', hnodup, fun j => ?_, htested hi hrest⟩
      rw [hmem, List.mem_cons]
      constructor
      · rintro (hj | ⟨hj, hu⟩)
        · exact Or.inl hj
        · exact Or.inr ⟨Or.inr hj, hu⟩
      · rintro (hj | ⟨rfl | hj, hu⟩)
        · exact Or.inl hj
        · exact Or.inl (hdone hu)
        · exact Or.inr ⟨hj, hu⟩
    · simp only [hok, ok_bind]
      refine (ih h₁ (List.nodup_cons.mpr ⟨hnew, hS⟩) hl').imp_right ?_
      rintro ⟨g', S', hfold, h', hnodup, hmem, hrest⟩
      refine ⟨g', S', hfold, h', hnodup, fun j => ?_, htested (fun _ => hi) hrest⟩
      rw [hmem, List.mem_cons, List.mem_cons]
      constructor
      · rintro ((rfl | hj) | ⟨hj, hu⟩)
        · exact Or.inr ⟨Or.inl rfl, hun⟩
        · exact Or.inl hj
        · exact Or.inr ⟨Or.inr hj, hu⟩
      · rintro (hj | ⟨rfl | hj, hu⟩)
        · exact Or.inl (Or.inr hj)
        · exact Or.inl (Or.inl rfl)
        · exact Or.inr ⟨hj, hu⟩

/-- An instruction in the code of one of the given blocks. -/
def StandsIn (f : Func) (blocks : List BlockId) (i : Id) : Prop :=
  ∃ b ∈ blocks, ∃ l, f.listing? b = some l ∧ i ∈ l

/-- Function `g` is `f` with the comparisons of the visited blocks replaced that the machine cannot
test. -/
structure Canonicalized (f : Func) (visited : List BlockId) (S : List Id) (g : Func) : Prop
    extends Replaced f S g where
  nodup : S.Nodup
  mem : ∀ i, i ∈ S ↔ f.StandsIn visited i ∧ f.Untestable i
  tested : ∀ i x, f.StandsIn visited i → f.live? i = some x → x.compares = true → f.OnlyTested i

lemma canonicalizeBlock_eq {n : Nat} {l : List Id} (hl : g.listing? b = some l) :
    canonicalizeBlock (n, g) b = l.foldlM (fun (n, f) id => do
      match ← f.complementAt id with
      | some f => return (n + 1, f)
      | none => return (n, f)) (n, g) := by
  have hcode : g.code b = .ok l.toArray := code_eq_ok.mpr hl
  unfold canonicalizeBlock
  rw [hcode]
  rfl

lemma Verified.canonicalized {n : Nat} (hv : Verified f blocks) (h : f.canonicalize = .ok (n, g)) :
    ∃ S, Canonicalized f blocks S g ∧ n = S.length := by
  obtain ⟨hsuccs, hmem⟩ := mem_reachable hv.reachable
  have hwalk := walkFrom_cases (n := f.blocks.size) (fun (st : Nat × Func) b => st.2.successors b)
    canonicalizeBlock (A := True) (E := f.Successor) (P := (· ∈ blocks))
    (I := fun visited st => ∃ S, Canonicalized f visited S st.2 ∧ st.1 = S.length)
    (fun b hb => by
      obtain ⟨succs, hs⟩ := hsuccs b hb
      exact bounds_of_successors hs)
    (fun b c hb hc => (hmem c).mpr (((hmem b).mp hb).tail hc))
    (fun visited st b hb _ ⟨S, hS, hlen⟩ => by
      obtain ⟨l, hl, -⟩ := hv.code hb
      obtain ⟨succs, hs⟩ := hsuccs b hb
      obtain ⟨m, g₁⟩ := st
      obtain rfl : m = S.length := hlen
      rw [canonicalizeBlock_eq ((hS.listing? b).trans hl)]
      rcases hS.code hv.tallied hS.nodup fun i hi => hv.live_of_mem hb hl hi with
        ⟨e, he⟩ | ⟨g', S', hfold, h', hnodup, hS', htested⟩
      · exact Or.inl ⟨trivial, e, he⟩
      · obtain ⟨succs', hs', hsame⟩ := h'.successors hs
        have hstands : ∀ i, f.StandsIn (b :: visited) i ↔ i ∈ l ∨ f.StandsIn visited i := by
          intro i
          simp [StandsIn, hl]
        refine Or.inr ⟨(S'.length, g'), succs', hfold, ⟨S', ⟨h', hnodup, fun i => ?_, ?_⟩, rfl⟩, hs',
          fun c => ?_⟩
        · rw [hS', hS.mem, hstands]
          tauto
        · intro i x hi
          rcases (hstands i).mp hi with hi | hi
          · exact htested i hi x
          · exact hS.tested i x hi
        · rw [hsame]
          exact ⟨fun hc => ⟨succs, hs, hc⟩, fun ⟨l, hl, hc⟩ =>
            (Except.ok.inj (hs.symm.trans hl)) ▸ hc⟩)
    [] (0, f) [f.entry] ⟨[], ⟨Replaced.refl f, List.nodup_nil, by simp [StandsIn], by simp [StandsIn]⟩,
      rfl⟩ (by simp [(hmem _).mpr Relation.ReflTransGen.refl]) (by simp)
  unfold canonicalize walk at h
  rcases hwalk with ⟨-, e, he⟩ | ⟨st, visited, hok, ⟨S, hS, hlen⟩, -, hentry, hclosed⟩
  · rw [he] at h
    cases h
  · rw [hok] at h
    obtain rfl : st = (n, g) := Except.ok.inj h
    have hsame : ∀ b, b ∈ visited ↔ b ∈ blocks := by
      intro b
      refine ⟨fun hb => (hclosed b hb).1, fun hb => ?_⟩
      rw [hmem] at hb
      induction hb with
      | refl => exact hentry _ (by simp)
      | tail _ hstep ih => exact (hclosed _ ih).2 _ hstep
    have hstands : ∀ i, f.StandsIn visited i ↔ f.StandsIn blocks i := by
      intro i
      simp [StandsIn, hsame]
    exact ⟨S, ⟨hS.toReplaced, hS.nodup, fun i => by rw [hS.mem, hstands],
      fun i x hi => hS.tested i x ((hstands i).mpr hi)⟩, hlen⟩

lemma Canonicalized.complementAt (h : Canonicalized f blocks S g) (hf : Tallied f)
    (hi : f.StandsIn blocks i) {x : Payload} (hx : f.live? i = some x) :
    g.complementAt i = .ok none := by
  have hy : g.live? i = some (x.complemented S i) := by
    rw [h.live?, hx]
    rfl
  cases hc : x.compares with
  | false => exact complementAt_of_not hy (by simpa using hc)
  | true =>
    have htested := h.onlyTested.mpr (h.tested i x hi hx hc)
    obtain ⟨op, l, r, rfl⟩ : ∃ op l r, x = .alu op l r := by
      cases x <;> simp [Payload.compares] at hc ⊢
    obtain ⟨op', hy', hnone, hrel⟩ : ∃ op', g.live? i = some (.alu op' l r) ∧ op'.complement? = none ∧
        op'.isRelational = true := by
      by_cases hop : op.complement?.isSome
      · have hmem : i ∈ S := (h.mem i).mpr ⟨hi, op, l, r, hx, hop⟩
        refine ⟨op.complement?.getD op, ?_, Payload.complement?_getD_none op, ?_⟩
        · rw [hy, Payload.complemented, if_pos hmem]
        · rw [Payload.complement?_getD_isRelational]
          exact hc
      · refine ⟨op, ?_, by simpa using hop, hc⟩
        have hmem : i ∉ S := by
          intro hmem
          obtain ⟨-, op₁, l₁, r₁, hop₁, hsome⟩ := (h.mem i).mp hmem
          obtain ⟨⟩ := Option.some.inj (hx.symm.trans hop₁)
          exact hop hsome
        rw [hy, Payload.complemented, if_neg hmem]
    rcases complementAt_slots (h.tallied hf) hy' hrel htested with ⟨-, hok⟩ | ⟨g', hsome, -⟩
    · exact hok
    · rw [hnone] at hsome
      cases hsome

lemma Canonicalized.again (h : Canonicalized f blocks S g) (hv : Verified f blocks) :
    g.canonicalize = .ok (0, g) := by
  obtain ⟨hsuccs, hmem⟩ := mem_reachable hv.reachable
  obtain ⟨st, visited, hok, hst, -⟩ :=
    walkFrom_ok (n := g.blocks.size) (fun (st : Nat × Func) b => st.2.successors b)
      canonicalizeBlock (E := f.Successor) (P := (· ∈ blocks)) (I := fun _ st => st = (0, g))
      (fun b hb => by
        obtain ⟨succs, hs⟩ := hsuccs b hb
        rw [h.blocks]
        exact bounds_of_successors hs)
      (fun b c hb hc => (hmem c).mpr (((hmem b).mp hb).tail hc))
      (fun visited st b hb _ hst => by
        subst hst
        obtain ⟨l, hl, -⟩ := hv.code hb
        obtain ⟨succs, hs⟩ := hsuccs b hb
        obtain ⟨succs', hs', hsame⟩ := h.successors hs
        refine ⟨(0, g), succs', ?_, rfl, hs', fun c => ?_⟩
        · rw [canonicalizeBlock_eq ((h.listing? b).trans hl)]
          have hnone : ∀ i ∈ l, g.complementAt i = .ok none := by
            intro i hi
            obtain ⟨x, hx⟩ := hv.live_of_mem hb hl hi
            exact h.complementAt hv.tallied ⟨b, hb, l, hl, hi⟩ hx
          clear hl
          induction l with
          | nil => rfl
          | cons i l ih =>
            rw [List.foldlM_cons]
            simp only [hnone i (by simp), ok_bind]
            exact ih fun j hj => hnone j (by simp [hj])
        · rw [hsame]
          exact ⟨fun hc => ⟨succs, hs, hc⟩, fun ⟨l, hl, hc⟩ =>
            (Except.ok.inj (hs.symm.trans hl)) ▸ hc⟩)
      [] (0, g) [g.entry] rfl (by
        rw [h.frame.head.entry]
        simp [(hmem _).mpr Relation.ReflTransGen.refl]) (by simp)
  unfold canonicalize walk
  rw [hok, hst]
  rfl

/-- The word that a branch on `c` tests, when the operands of a comparison or else the condition have
the given values. -/
def condition (f : Func) (value : Id → UInt64) (c : Id) : UInt64 :=
  match f.payload c with
  | .ok (.alu op l r) => (op.compared? (value l) (value r)).getD (value c)
  | _ => value c

/-- The block that a conditional branch goes to. -/
def goesTo? (f : Func) (value : Id → UInt64) (t : Id) : Option BlockId :=
  match f.payload t with
  | .ok (.branchIf test c a b) => some (if test.holds (f.condition value c) then a else b)
  | _ => none

lemma Canonicalized.condition_of_mem (h : Canonicalized f blocks S g) (value : Id → UInt64) {c : Id}
    (hc : c ∈ S) : 0 < g.condition value c ↔ ¬ 0 < f.condition value c := by
  obtain ⟨-, op, l, r, hx, hsome⟩ := (h.mem c).mp hc
  obtain ⟨op', z, z', hop', hz, hz'⟩ := compared?_of_complement hsome (value l) (value r)
  have hy : g.live? c = some (.alu op' l r) := by
    rw [h.live?, hx]
    simp [Payload.complemented, hc, hop']
  have hf : f.condition value c = z := by
    simp [condition, payload_of_live hx, hz]
  have hg : g.condition value c = z' := by
    simp [condition, payload_of_live hy, hz']
  rw [hf, hg]
  exact compared_complement hop' hz hz'

lemma Canonicalized.condition_of_not_mem (h : Canonicalized f blocks S g) (value : Id → UInt64)
    {c : Id} (hc : c ∉ S) {x : Payload} (hx : f.live? c = some x) :
    g.condition value c = f.condition value c := by
  have hy : g.live? c = some (x.complemented S c) := by
    rw [h.live?, hx]
    rfl
  unfold condition
  rw [payload_of_live hx, payload_of_live hy]
  rcases Payload.complemented_cases S c x with heq | ⟨op, l, r, hmem, -⟩ | ⟨t, d, a, b, -, rfl, heq⟩
  · rw [heq]
  · exact absurd hmem hc
  · rw [heq]

lemma Canonicalized.goesTo? (h : Canonicalized f blocks S g) (hv : Verified f blocks) {t : Id}
    (ht : f.StandsIn blocks t) (value : Id → UInt64) : g.goesTo? value t = f.goesTo? value t := by
  obtain ⟨b, hb, l, hl, hmem⟩ := ht
  obtain ⟨x, hx⟩ := hv.live_of_mem hb hl hmem
  have hy : g.live? t = some (x.complemented S t) := by
    rw [h.live?, hx]
    rfl
  unfold Func.goesTo?
  rw [payload_of_live hx, payload_of_live hy]
  cases x with
  | branchIf test c p q =>
    by_cases hc : c ∈ S
    · have hholds := holds_complement test (h.condition_of_mem value hc)
      simp only [Payload.complemented, hc, if_true, hholds]
      cases test.holds (f.condition value c) <;> rfl
    · obtain ⟨s, hs, hdead, -⟩ := hv.operands hx (d := c) (by simp [Payload.operands])
      have hcond := h.condition_of_not_mem value hc (live?_eq_some.mpr ⟨s, hs, hdead, rfl⟩)
      simp only [Payload.complemented, hc, if_false, hcond]
  | alu op l r => by_cases hmem : t ∈ S <;> simp [Payload.complemented, hmem]
  | _ => rfl

lemma successors_of_live {l : List Id} (hl : f.listing? b = some l) {t : Id} {x : Payload}
    (ht : l.getLast? = some t) (hx : f.live? t = some x) : f.successors b = .ok x.targets := by
  have hcode : f.code b = .ok l.toArray := code_eq_ok.mpr hl
  have hne : t ≠ noId := by
    obtain ⟨s, hs, -, -⟩ := live?_eq_some.mp hx
    have := nonneg_of_at? hs
    rintro rfl
    simp [noId] at this
  unfold Func.successors terminator?
  simp only [hcode, ok_bind, pure_eq_ok, List.back?_toArray, ht, hne, if_false, payload_of_live hx]

lemma Verified.target_mem (hv : Verified f blocks) (hi : f.StandsIn blocks i) {x : Payload}
    (hx : f.live? i = some x) (hc : c ∈ x.targets) : c ∈ blocks := by
  obtain ⟨b, hb, l, hl, hmem⟩ := hi
  obtain ⟨m, hm, hcl⟩ := hv.code hb
  obtain rfl : l = m := Option.some.inj (hl.symm.trans hm)
  have hterm : x.isTerminal = true := by
    cases x <;> simp [Payload.targets] at hc <;> rfl
  have hreach := (mem_reachable hv.reachable).2
  refine (hreach c).mpr (((hreach b).mp hb).tail ⟨x.targets, ?_, hc⟩)
  exact successors_of_live hl (hcl.getLast_eq hmem hx hterm) hx

/-- Values that are the same but for the comparisons of `S`, which hold on one side only. -/
structure Opposed (S : List Id) (vs vs' : Id → Value) : Prop where
  same : ∀ d, d ∉ S → vs' d = vs d
  opposed : ∀ d ∈ S, (vs d = .nothing ∧ vs' d = .nothing) ∨
    ∃ z z', vs d = .word z ∧ vs' d = .word z' ∧ (0 < z' ↔ ¬ 0 < z)

section Runs

open Reading
open Accumulator.Exec (Alike)

variable {vs vs' : Id → Value} {r r' : Reading} {goTo goTo' : Nat → BlockId → Exec Ending} {k : Nat}

lemma Opposed.set_same (h : Opposed S vs vs') (hi : i ∉ S) (v : Value) :
    Opposed S (fun j => if j = i then v else vs j) fun j => if j = i then v else vs' j := by
  refine ⟨fun d hd => ?_, fun d hd => ?_⟩
  · split
    · rfl
    · exact h.same d hd
  · have hne : d ≠ i := fun heq => hi (heq ▸ hd)
    simpa [hne] using h.opposed d hd

lemma Opposed.set_opposed (h : Opposed S vs vs') (hi : i ∈ S) {z z' : UInt64}
    (hz : 0 < z' ↔ ¬ 0 < z) :
    Opposed S (fun j => if j = i then .word z else vs j) fun j => if j = i then .word z' else vs' j := by
  refine ⟨fun d hd => ?_, fun d hd => ?_⟩
  · have hne : d ≠ i := fun heq => hd (heq ▸ hi)
    simpa [hne] using h.same d hd
  · by_cases hdi : d = i
    · exact Or.inr ⟨z, z', by simp [hdi], by simp [hdi], hz⟩
    · simpa [hdi] using h.opposed d hd

lemma Opposed.tracks (h : Opposed S vs vs') (hvar : ∀ d, g.varOf? d = f.varOf? d) :
    Tracks [] (· ∉ S) id { number := k, func := f, values := vs }
      { number := k, func := g, values := vs' } :=
  ⟨rfl, fun d _ => hvar d, fun _ _ _ _ => ⟨rfl, by simp⟩, h.same, fun _ _ _ _ => by simp⟩

lemma Canonicalized.isBranchIf_of_mem (h : Canonicalized f blocks S g) {d u : Id} {x : Payload}
    (hd : d ∈ S) (hx : f.live? u = some x) (hop : d ∈ x.operands) : x.isBranchIf = true := by
  obtain ⟨hstands, op, l, r, hpay, hsome⟩ := (h.mem d).mp hd
  exact h.tested d _ hstands hpay (compares_of_complement hsome) u x hx hop

lemma Canonicalized.alike_compares (h : Canonicalized f blocks S g) (hi : i ∈ S)
    (hvs : Opposed S vs vs') {m : List Id}
    (hrest : ∀ ws ws', Opposed S ws ws' → Alike (Agree []) Eq
      (r.exec goTo { number := k, func := f, values := ws } m)
      (r'.exec goTo' { number := k, func := g, values := ws' } m)) :
    Alike (Agree []) Eq (r.exec goTo { number := k, func := f, values := vs } (i :: m))
      (r'.exec goTo' { number := k, func := g, values := vs' } (i :: m)) := by
  obtain ⟨-, op, left, right, hx, hsome⟩ := (h.mem i).mp hi
  obtain ⟨op', hop'⟩ := Option.isSome_iff_exists.mp hsome
  have hy : g.live? i = some (.alu op' left right) := by
    rw [h.live?, hx]
    simp [Payload.complemented, hi, hop']
  have hsame : ∀ d ∈ [left, right], vs' d = vs d := fun d hd =>
    hvs.same d fun hmem => Bool.false_ne_true (h.isBranchIf_of_mem hmem hx hd)
  have hword : ∀ d ∈ [left, right],
      Activation.word? { number := k, func := g, values := vs' } d =
        Activation.word? { number := k, func := f, values := vs } d := fun d hd =>
    congrArg Value.word? (hsame d hd)
  have hpx : (Activation.func { number := k, func := f, values := vs }).payload i =
      .ok (.alu op left right) := payload_of_live hx
  have hpy : (Activation.func { number := k, func := g, values := vs' }).payload i =
      .ok (.alu op' left right) := payload_of_live hy
  rw [exec_computes hpx rfl, exec_computes hpy rfl, compute, compute,
    hword left (by simp), hword right (by simp)]
  simp only [bind_assoc]
  refine (Alike.required _).bind ?_
  rintro y _ rfl
  refine (Alike.required _).bind ?_
  rintro x _ rfl
  obtain ⟨op'', z, z', hop'', hz, hz'⟩ := compared?_of_complement hsome x y
  obtain rfl : op' = op'' := Option.some.inj (hop'.symm.trans hop'')
  rw [operate_of_compared r hz, operate_of_compared r' hz']
  exact hrest _ _ (hvs.set_opposed hi (compared_complement hop' hz hz'))

lemma Canonicalized.alike_branchIf (h : Canonicalized f blocks S g) {test : Test} {cond : Id}
    {p q : BlockId} (hx : f.live? i = some (.branchIf test cond p q)) (hcond : cond ∈ S)
    (hvs : Opposed S vs vs') {m : List Id}
    (hbranch : ∀ b ∈ [p, q], Alike (Agree []) Eq (goTo k b) (goTo' k b)) :
    Alike (Agree []) Eq (r.exec goTo { number := k, func := f, values := vs } (i :: m))
      (r'.exec goTo' { number := k, func := g, values := vs' } (i :: m)) := by
  have hy : g.live? i = some (.branchIf test cond q p) := by
    rw [h.live?, hx]
    simp [Payload.complemented, hcond]
  have hpx : (Activation.func { number := k, func := f, values := vs }).payload i =
      .ok (.branchIf test cond p q) := payload_of_live hx
  have hpy : (Activation.func { number := k, func := g, values := vs' }).payload i =
      .ok (.branchIf test cond q p) := payload_of_live hy
  rw [exec_branchIf hpx, exec_branchIf hpy]
  unfold Activation.word?
  rcases hvs.opposed cond hcond with ⟨hn, hn'⟩ | ⟨z, z', hz, hz', hopp⟩
  · simp only [hn, hn']
    exact Alike.throw _
  · simp only [hz, hz', Value.word?]
    rw [required_bind, required_bind, holds_complement test hopp]
    cases test.holds z
    · exact hbranch q (by simp)
    · exact hbranch p (by simp)

lemma Canonicalized.alike_exec (h : Canonicalized f blocks S g) (hv : Verified f blocks)
    (hr : Similar [] r r') (hbranch : ∀ c ∈ blocks, Alike (Agree []) Eq (goTo k c) (goTo' k c))
    (hcall : ∀ {j : Nat} {g}, r.program.funcs[j]? = some g →
      Alike (Agree []) Eq (goTo j g.entry) (goTo' j g.entry))
    {l : List Id} (hl : ∀ i ∈ l, f.StandsIn blocks i) (hvs : Opposed S vs vs') :
    Alike (Agree []) Eq (r.exec goTo { number := k, func := f, values := vs } l)
      (r'.exec goTo' { number := k, func := g, values := vs' } l) := by
  induction l generalizing vs vs' with
  | nil => exact Alike.throw _
  | cons i m ih =>
    have hrest : ∀ ws ws', Opposed S ws ws' → Alike (Agree []) Eq
        (r.exec goTo { number := k, func := f, values := ws } m)
        (r'.exec goTo' { number := k, func := g, values := ws' } m) :=
      fun ws ws' => ih fun j hj => hl j (by simp [hj])
    have hi := hl i (by simp)
    by_cases hmem : i ∈ S
    · exact h.alike_compares hmem hvs hrest
    · obtain ⟨x, hx⟩ : ∃ x, f.live? i = some x := by
        obtain ⟨b, hb, l, hl, hil⟩ := hi
        exact hv.live_of_mem hb hl hil
      have hto : ∀ b ∈ x.targets, Alike (Agree []) Eq (goTo k b) (goTo' k b) := fun b hb =>
        hbranch b (hv.target_mem hi hx hb)
      by_cases hops : ∀ d ∈ x.operands, d ∉ S
      · have hsame : x.complemented S i = x := by
          cases x with
          | alu op l r => rw [Payload.complemented, if_neg hmem]
          | branchIf t c p q => rw [Payload.complemented, if_neg (hops c (by simp [Payload.operands]))]
          | _ => rfl
        have hy : g.payload i = .ok (x.rename id) := by
          have hid : x.rename id = x := Payload.rename_of_fixed fun _ _ => rfl
          rw [hid]
          refine payload_of_live ?_
          rw [h.live?, hx, Option.map_some, hsame]
        refine alike_exec_cons hr (hvs.tracks h.varOf?) (payload_of_live hx) hy hops hto hcall
          fun v _ => ?_
        cases v with
        | none => exact hrest _ _ hvs
        | some v => exact hrest _ _ (hvs.set_same hmem v)
      · obtain ⟨d, hd, hdS⟩ : ∃ d ∈ x.operands, d ∈ S := by simpa using hops
        have hbr := h.isBranchIf_of_mem hdS hx hd
        cases x with
        | branchIf test cond p q =>
          obtain rfl : d = cond := by simpa [Payload.operands] using hd
          exact h.alike_branchIf hx hdS hvs hto
        | _ => cases hbr

lemma Canonicalized.sameRuns (h : Canonicalized f blocks S g) (hv : Verified f blocks)
    (hk : r.program.funcs[k]? = some f) (j : Nat) : SameRuns [] r (r.withFunc k g) j := by
  have hhead := h.frame.head
  have hface : SameFace f g := ⟨hhead.params, hhead.entry, fun p _ => h.varOf? p⟩
  have hsim := similar_withFunc (H := []) hk hface fun i _ => h.varOf? i
  have hentry : f.entry ∈ blocks :=
    ((mem_reachable hv.reachable).2 _).mpr Relation.ReflTransGen.refl
  refine sameRuns_of_alike hsim fun n f' hf' => ?_
  refine alike_withFunc hk hsim (by simp) (R := (· ∈ blocks)) hentry (fun b hb => ?_) n j f'.entry ?_
  · obtain ⟨l, hl, -⟩ := hv.code hb
    refine ⟨l, l, hl, (h.listing? b).trans hl, fun goTo goTo' hgo hcall => ?_⟩
    refine h.alike_exec hv hsim hgo hcall (fun i hi => ⟨b, hb, l, hl, hi⟩) ⟨fun _ _ => rfl, ?_⟩
    exact fun _ _ => Or.inl ⟨rfl, rfl⟩
  · rintro rfl
    obtain rfl := Option.some.inj (hk.symm.trans hf')
    exact hentry

end Runs

lemma complement?_isSome {op : Op} : op.complement?.isSome ↔ op ∈ [Op.eq, .le, .ge] := by
  cases op <;> simp [Op.complement?]

lemma Canonicalized.not_mem_replaced (h : Canonicalized f blocks S g) (hi : f.StandsIn blocks i)
    {op : Op} {l r : Id} (hy : g.live? i = some (.alu op l r)) : op ∉ [Op.eq, .le, .ge] := by
  rw [← complement?_isSome]
  rw [h.live?] at hy
  obtain ⟨x, hx, hxy⟩ := Option.map_eq_some_iff.mp hy
  by_cases hmem : i ∈ S
  · obtain ⟨-, op₁, l₁, r₁, hx₁, -⟩ := (h.mem i).mp hmem
    obtain rfl : x = .alu op₁ l₁ r₁ := Option.some.inj (hx.symm.trans hx₁)
    rw [Payload.complemented, if_pos hmem] at hxy
    obtain ⟨rfl, -, -⟩ := Payload.alu.inj hxy
    simp [Payload.complement?_getD_none]
  · rintro hsome
    rcases Payload.complemented_cases S i x with heq | ⟨-, -, -, hi', -⟩ | ⟨t, c, a, b, -, -, heq⟩
    · rw [← heq, hxy] at hx
      exact hmem ((h.mem i).mpr ⟨hi, op, l, r, hx, hsome⟩)
    · exact hmem hi'
    · rw [heq] at hxy
      cases hxy

/-- In a function that passes its checks, replacing the comparisons that the machine cannot test
keeps its checks, its blocks and its meaning. Where it does not break off, only the operations of the
comparisons and the order of the targets of branches on them change; all of them are replaced, once,
and counted; branches go where they went whatever the values are; and there is nothing to do for a
second run. -/
theorem canonicalize_keeps_meaning {n : Nat} (hverify : f.verify = .ok (.ok ()))
    (hcanon : f.canonicalize = .ok (n, g)) :
    ∃ blocks blocks' S, f.reachable = .ok blocks ∧ g.reachable = .ok blocks' ∧
      (∀ b, b ∈ blocks' ↔ b ∈ blocks) ∧
      g.verify = .ok (.ok ()) ∧
      (∀ i op l r, g.StandsIn blocks' i → g.live? i = some (.alu op l r) → op ∉ [Op.eq, .le, .ge]) ∧
      Replaced f S g ∧
      (S.Nodup ∧ n = S.length ∧ ∀ i, i ∈ S ↔ f.StandsIn blocks i ∧
        ∃ op l r, f.live? i = some (.alu op l r) ∧ op ∈ [Op.eq, .le, .ge]) ∧
      (∀ t value, f.StandsIn blocks t → g.goesTo? value t = f.goesTo? value t) ∧
      g.canonicalize = .ok (0, g) ∧
      ∀ (r : Reading) (k j : Nat), r.program.funcs[k]? = some f →
        Reading.SameRuns [] r (r.withFunc k g) j := by
  obtain ⟨blocks, hv⟩ := verify_iff_verified.mp hverify
  obtain ⟨S, h, hlen⟩ := hv.canonicalized hcanon
  obtain ⟨blocks', hv', hsame⟩ := h.verified hv
  refine ⟨blocks, blocks', S, hv.reachable, hv'.reachable, hsame, verify_iff_verified.mpr ⟨_, hv'⟩, ?_,
    h.toReplaced, ⟨h.nodup, hlen, fun i => ?_⟩, fun t value ht => h.goesTo? hv ht value, h.again hv,
    fun r k j hk => h.sameRuns hv hk j⟩
  · rintro i op l r ⟨b, hb, m, hm, hi⟩ hy
    exact h.not_mem_replaced ⟨b, (hsame b).mp hb, m, (h.listing? b).symm.trans hm, hi⟩ hy
  · rw [h.mem]
    simp only [Untestable, complement?_isSome]

/-- Output of one if the input is zero, and of two otherwise. The test is for equality. -/
def choosing : Func :=
  { name := "main"
    isMain := true
    entry := 0
    blocks := #[#[0, 1, 2, 3], #[4, 5, 6], #[7, 8, 9]]
    slots := #[
      { payload := .read, block := 0, refs := [2] },
      { payload := .const 0, block := 0, refs := [2] },
      { payload := .alu .eq 0 1, block := 0, refs := [3] },
      { payload := .branchIf .positive 2 1 2, block := 0 },
      { payload := .const 1, block := 1, refs := [5] },
      { payload := .write 4, block := 1 },
      { payload := .stop, block := 1 },
      { payload := .const 2, block := 2, refs := [8] },
      { payload := .write 7, block := 2 },
      { payload := .stop, block := 2 }] }

/-- The same with the test for inequality. -/
def choosingOther : Func :=
  { choosing with
    slots := (choosing.slots.setIfInBounds 2 { payload := .alu .ne 0 1, block := 0, refs := [3] })
      |>.setIfInBounds 3 { payload := .branchIf .positive 2 2 1, block := 0 } }

lemma walkFrom_fork {σ : Type} {next : σ → BlockId → Except Fault (List BlockId)}
    {visit : σ → BlockId → Except Fault σ} {n : Nat} {s₀ s₁ s₂ s₃ : σ} {b p q : BlockId}
    (hb : 0 ≤ b ∧ b < n) (hp : 0 ≤ p ∧ p < n) (hq : 0 ≤ q ∧ q < n) (hpb : p ∉ [b]) (hqp : q ∉ [p, b])
    (h₁ : visit s₀ b = .ok s₁) (hnext : next s₁ b = .ok [p, q])
    (h₂ : visit s₁ p = .ok s₂) (hlast : next s₂ p = .ok [])
    (h₃ : visit s₂ q = .ok s₃) (hlast' : next s₃ q = .ok []) :
    walkFrom n next visit [] s₀ [b] = .ok (s₃, [q, p, b]) := by
  rw [walkFrom_cons next visit hb (by simp) h₁ hnext, List.append_nil,
    walkFrom_cons next visit hp hpb h₂ hlast, List.nil_append,
    walkFrom_cons next visit hq hqp h₃ hlast', List.nil_append, walkFrom]

lemma choosing_reachable : choosing.reachable = .ok [0, 1, 2] := by
  have hwalk : walkFrom 3 (fun _ b => choosing.successors b) (fun (_ : Unit) _ => .ok ()) [] () [0] =
      .ok ((), [2, 1, 0]) :=
    walkFrom_fork (by decide) (by decide) (by decide) (by decide) (by decide) rfl rfl rfl rfl rfl rfl
  exact congrArg (fun x => x >>= fun v => .ok v.2.reverse) hwalk

lemma choosing_verify : choosing.verify = .ok (.ok ()) := by
  refine verify_iff_verified.mpr ⟨[0, 1, 2], by decide, choosing_reachable, ?_, ?_⟩
  · have hblocks : Passes (([0, 1, 2] : List BlockId).forM choosing.checkBlock) () := rfl
    exact passes_forM.mp hblocks
  · rw [← check_slots]
    rfl

lemma choosing_canonicalize : choosing.canonicalize = .ok (1, choosingOther) := by
  have hfirst : canonicalizeBlock (0, choosing) 0 = .ok (1, choosingOther) := by decide
  have hsecond : canonicalizeBlock (1, choosingOther) 2 = .ok (1, choosingOther) := by decide
  have hthird : canonicalizeBlock (1, choosingOther) 1 = .ok (1, choosingOther) := by decide
  have hwalk : walkFrom 3 (fun (st : Nat × Func) b => st.2.successors b) canonicalizeBlock []
      (0, choosing) [0] = .ok ((1, choosingOther), [1, 2, 0]) :=
    walkFrom_fork (by decide) (by decide) (by decide) (by decide) (by decide) hfirst rfl hsecond rfl
      hthird rfl
  exact congrArg (fun x => Prod.fst <$> x) hwalk

/-- The walk goes on in the order of the exchanged targets, and the example runs as before. -/
theorem choosing_keeps_meaning :
    choosing.verify = .ok (.ok ()) ∧ choosing.canonicalize = .ok (1, choosingOther) ∧
      choosingOther.verify = .ok (.ok ()) ∧ choosingOther.canonicalize = .ok (0, choosingOther) ∧
      ∀ (r : Reading) (k j : Nat), r.program.funcs[k]? = some choosing →
        Reading.SameRuns [] r (r.withFunc k choosingOther) j := by
  obtain ⟨-, -, -, -, -, -, hverify, -, -, -, -, hagain, hruns⟩ :=
    canonicalize_keeps_meaning choosing_verify choosing_canonicalize
  exact ⟨choosing_verify, choosing_canonicalize, hverify, hagain, hruns⟩

end Func

end Accumulator.Flow
