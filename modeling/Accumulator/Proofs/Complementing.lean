import Mathlib
import Accumulator.Flow.Canonical
import Accumulator.Proofs.Orderly

/-!
# Complementing comparisons

Replacing some comparisons by their complements and exchanging the targets of the branches on them
changes nothing else of a function: operands, users, code and variables are what they were. In an
orderly function the replacement never breaks, and it gets to every comparison that control comes
to.
-/

namespace Accumulator.Flow

/-- An instruction when the comparisons of `S` are replaced by their complements. -/
def Payload.complemented (S : List Id) (u : Id) : Payload → Payload
  | .alu op l r => if u ∈ S then .alu (op.complement?.getD op) l r else .alu op l r
  | .branchIf t c a b => if c ∈ S then .branchIf t c b a else .branchIf t c a b
  | x => x

namespace Payload

variable {S : List Id} {u : Id} {x : Payload}

lemma complement?_getD_isRelational (op : Op) :
    (op.complement?.getD op).isRelational = op.isRelational := by
  cases op <;> rfl

lemma complement?_getD_isTree (op : Op) : (op.complement?.getD op).isTree = op.isTree := by
  cases op <;> rfl

lemma complement?_getD_none (op : Op) : (op.complement?.getD op).complement? = none := by
  cases op <;> rfl

/-- An instruction stays as it is, or is a comparison that gets another operation, or is a branch
that exchanges its targets. -/
lemma complemented_cases (S : List Id) (u : Id) (x : Payload) :
    x.complemented S u = x ∨
      (∃ op l r, u ∈ S ∧ x = .alu op l r ∧
        x.complemented S u = .alu (op.complement?.getD op) l r) ∨
      ∃ t c a b, c ∈ S ∧ x = .branchIf t c a b ∧ x.complemented S u = .branchIf t c b a := by
  cases x with
  | alu op l r =>
    by_cases h : u ∈ S
    · exact Or.inr (Or.inl ⟨op, l, r, h, rfl, if_pos h⟩)
    · exact Or.inl (if_neg h)
  | branchIf t c a b =>
    by_cases h : c ∈ S
    · exact Or.inr (Or.inr ⟨t, c, a, b, h, rfl, if_pos h⟩)
    · exact Or.inl (if_neg h)
  | _ => exact Or.inl rfl

/-- What does not depend on the operation of a comparison and the order of targets is kept. -/
lemma complemented_keeps {α : Type} (g : Payload → α)
    (halu : ∀ op l r, g (.alu (op.complement?.getD op) l r) = g (.alu op l r))
    (hbranch : ∀ t c a b, g (.branchIf t c b a) = g (.branchIf t c a b)) :
    g (x.complemented S u) = g x := by
  rcases complemented_cases S u x with h | ⟨op, l, r, -, rfl, h⟩ | ⟨t, c, a, b, -, rfl, h⟩
  · rw [h]
  · rw [h, halu]
  · rw [h, hbranch]

@[simp] lemma operands_complemented : (x.complemented S u).operands = x.operands :=
  complemented_keeps Payload.operands (fun _ _ _ => rfl) fun _ _ _ _ => rfl

@[simp] lemma asVar_complemented : (x.complemented S u).asVar = x.asVar :=
  complemented_keeps Payload.asVar (fun _ _ _ => rfl) fun _ _ _ _ => rfl

@[simp] lemma isTerminal_complemented : (x.complemented S u).isTerminal = x.isTerminal :=
  complemented_keeps Payload.isTerminal (fun _ _ _ => rfl) fun _ _ _ _ => rfl

@[simp] lemma produces_complemented : (x.complemented S u).produces = x.produces :=
  complemented_keeps Payload.produces (fun _ _ _ => rfl) fun _ _ _ _ => rfl

@[simp] lemma isCall_complemented : (x.complemented S u).isCall = x.isCall :=
  complemented_keeps Payload.isCall (fun _ _ _ => rfl) fun _ _ _ _ => rfl

@[simp] lemma isBranchIf_complemented : (x.complemented S u).isBranchIf = x.isBranchIf :=
  complemented_keeps Payload.isBranchIf (fun _ _ _ => rfl) fun _ _ _ _ => rfl

@[simp] lemma compares_complemented : (x.complemented S u).compares = x.compares :=
  complemented_keeps Payload.compares (fun op _ _ => complement?_getD_isRelational op)
    fun _ _ _ _ => rfl

lemma mem_targets_complemented {b : BlockId} : b ∈ (x.complemented S u).targets ↔ b ∈ x.targets := by
  rw [complemented_keeps (fun x => b ∈ x.targets) (fun _ _ _ => rfl)]
  intro t c a b
  simp [Payload.targets, or_comm]

lemma suits_complemented {arity : Nat → Nat → Prop} {isMain : Bool} :
    (x.complemented S u).Suits (·.isTree) arity isMain ↔ x.Suits (·.isTree) arity isMain := by
  rw [complemented_keeps (fun x => x.Suits (·.isTree) arity isMain)]
  · intro op _ _
    simp only [Payload.Suits, complement?_getD_isTree]
  · exact fun _ _ _ _ => rfl

lemma needs_complemented (f : Func) : f.needs (x.complemented S u) = f.needs x :=
  complemented_keeps f.needs (fun _ _ _ => rfl) fun _ _ _ _ => rfl

lemma named_complemented (f : Func) : f.named (x.complemented S u) = f.named x :=
  complemented_keeps f.named (fun _ _ _ => rfl) fun _ _ _ _ => rfl

lemma complemented_cons {i : Id} (hi : i ∉ S) :
    (x.complemented S u).complemented [i] u = x.complemented (i :: S) u := by
  cases x with
  | alu op l r =>
    by_cases hu : u = i
    · subst hu
      simp [complemented, hi]
    · by_cases h : u ∈ S <;> simp [complemented, hu, h]
  | branchIf t c a b =>
    by_cases hc : c = i
    · subst hc
      simp [complemented, hi]
    · by_cases h : c ∈ S <;> simp [complemented, hc, h]
  | _ => rfl

lemma complemented_of_not {i : Id} (hu : u ≠ i) (hi : i ∉ x.operands) :
    x.complemented [i] u = x := by
  rcases complemented_cases [i] u x with h | ⟨op, l, r, hmem, -⟩ | ⟨t, c, a, b, hmem, rfl, -⟩
  · exact h
  · exact absurd (List.mem_singleton.mp hmem) hu
  · exact absurd (by simpa [Payload.operands, eq_comm] using hmem) hi

lemma complemented_nil : x.complemented [] u = x := by
  cases x <;> simp [complemented]

end Payload

namespace Func

variable {f g : Func} {S : List Id} {i : Int} {b : BlockId} {l : List Id} {x : Payload}

lemma Becomes.of_payloads (hf : Sound f) (p : Id → Slot → Payload) (hframe : SameFrame f g)
    (hblocks : g.blocks = f.blocks)
    (hat : ∀ j, g.at? j = (f.at? j).map fun s => { s with payload := p j s })
    (hops : ∀ j s, (p j s).operands = s.payload.operands)
    (hvar : ∀ j s, (p j s).asVar = s.payload.asVar) :
    Becomes f g (fun j => (f.at? j).bind fun s => if s.dead then none else some (p j s))
      f.listing? := by
  have hcode : ∀ b, g.listing? b = f.listing? b := by
    intro b
    rw [listing?_eq, listing?_eq, hblocks]
  have hlive : ∀ j, g.live? j = (f.at? j).bind fun s => if s.dead then none else some (p j s) := by
    intro j
    unfold live?
    rw [hat]
    cases f.at? j <;> rfl
  have huses : ∀ u d, g.uses u d = f.uses u d := by
    intro u d
    unfold uses
    rw [hlive, live?]
    cases f.at? u with
    | none => rfl
    | some s => cases hd : s.dead <;> simp [hd, hops]
  have hslot : ∀ {j s'}, g.at? j = some s' → ∃ s, f.at? j = some s ∧
      { s with payload := p j s } = s' := by
    intro j s' h
    rw [hat] at h
    exact Option.map_eq_some_iff.mp h
  refine ⟨hframe, ⟨?_, ?_, ?_, ?_, ?_⟩, fun j => ?_, by rw [hblocks], hlive, hcode⟩
  · intro d s' hs' u
    obtain ⟨s, hs, rfl⟩ := hslot hs'
    rw [huses]
    exact hf.refs hs u
  · intro u x' hx' d hd
    obtain ⟨s', hs', hdead, rfl⟩ := live?_eq_some.mp hx'
    obtain ⟨s, hs, rfl⟩ := hslot hs'
    rw [hops] at hd
    have := hf.operands (live?_eq_some.mpr ⟨s, hs, hdead, rfl⟩) d hd
    rw [hat]
    simpa using this
  · intro j s' hs' hb
    obtain ⟨s, hs, rfl⟩ := hslot hs'
    obtain ⟨l, hl, hj⟩ := hf.placed hs hb
    exact ⟨l, (hcode _).trans hl, hj⟩
  · intro b l hl
    exact hf.nodup ((hcode b).symm.trans hl)
  · intro b l hl j hj
    obtain ⟨s, hs, hb, hd, hv⟩ := hf.code ((hcode b).symm.trans hl) j hj
    refine ⟨{ s with payload := p j s }, by rw [hat, hs]; rfl, hb, hd, ?_⟩
    rw [← Payload.asVar_eq_none] at hv ⊢
    rw [hvar, hv]
  · rw [varOf?_eq, varOf?_eq, hat]
    cases f.at? j <;> simp [hvar]

/-- Exchange the targets of a branch. -/
def swapped : Payload → Payload
  | .branchIf t c a b => .branchIf t c b a
  | x => x

lemma swapTargets_eq (h : (f.at? i).isSome) :
    f.swapTargets i = .ok (f.amend i fun s => { s with payload := swapped s.payload }) := by
  obtain ⟨s, hs⟩ := Option.isSome_iff_exists.mp h
  unfold swapTargets
  rw [updateSlot_eq hs]
  congr 2
  funext s
  cases s with
  | mk payload => cases payload <;> rfl

lemma swapAll_spec {us : List Id} (hnodup : us.Nodup) (hus : ∀ u ∈ us, (f.at? u).isSome) :
    ∃ g, us.foldlM swapTargets f = .ok g ∧ SameFrame f g ∧ g.blocks = f.blocks ∧
      ∀ j, g.at? j = if j ∈ us then (f.at? j).map fun s => { s with payload := swapped s.payload }
        else f.at? j := by
  induction us generalizing f with
  | nil => exact ⟨f, rfl, SameFrame.refl f, rfl, fun j => by simp⟩
  | cons u us ih =>
    obtain ⟨hu, hnodup⟩ := List.nodup_cons.mp hnodup
    have hsome := hus u (by simp)
    obtain ⟨s, hs⟩ := Option.isSome_iff_exists.mp hsome
    have hat := at?_amend (f := f) (nonneg_of_at? hs) fun s => { s with payload := swapped s.payload }
    set f₁ := f.amend u fun s => { s with payload := swapped s.payload } with hf₁
    obtain ⟨g, hfold, hframe, hblocks, hg⟩ := ih (f := f₁) hnodup fun v hv => by
      rw [hat]
      have := hus v (by simp [hv])
      split <;> simpa using this
    refine ⟨g, ?_, (sameFrame_amend f u _).trans hframe, hblocks, fun j => ?_⟩
    · rw [List.foldlM_cons, swapTargets_eq hsome, ← hf₁, ok_bind, hfold]
    · rw [hg, hat]
      by_cases hj : j = u
      · subst hj
        simp [hu]
      · simp [hj]

/-- All users of a comparison are branches on it. -/
def OnlyBranches (f : Func) : Prop :=
  ∀ {u x d y}, f.live? u = some x → d ∈ x.operands → f.live? d = some y → y.compares = true →
    x.isBranchIf = true

/-- Users are listed once per operand. -/
def Tallied (f : Func) : Prop := ∀ d s, f.at? d = some s → ∀ u, s.refs.count u = f.uses u d

lemma Sound.tallied (hf : Sound f) : Tallied f := fun _ _ hs => hf.refs hs

lemma Tallied.mem_refs_iff (hf : Tallied f) {s : Slot} (hs : f.at? i = some s) {u : Id} :
    u ∈ s.refs ↔ ∃ x, f.live? u = some x ∧ i ∈ x.operands := by
  rw [← List.count_pos_iff, hf i s hs]
  cases hu : f.live? u with
  | none => simp [uses_of_none hu]
  | some x => simp [uses_of_live hu, List.count_pos_iff]

lemma refs_nodup_of_branches (hf : Tallied f) {s : Slot} (hs : f.at? i = some s)
    (h : ∀ u x, f.live? u = some x → i ∈ x.operands → x.isBranchIf = true) : s.refs.Nodup := by
  rw [List.nodup_iff_count_le_one]
  intro u
  rw [hf i s hs]
  cases hx : f.live? u with
  | none => simp [uses_of_none hx]
  | some x =>
    rw [uses_of_live hx]
    by_cases hmem : i ∈ x.operands
    · cases x with
      | branchIf t c a b =>
        exact List.count_le_length (a := i) (l := [c])
      | _ => exact absurd (h u _ hx hmem) (by simp [Payload.isBranchIf])
    · rw [List.count_eq_zero_of_not_mem hmem]
      omega

lemma checkBranch_ok {u : Id} {x : Payload} (hx : f.live? u = some x) (hb : x.isBranchIf = true) :
    f.checkBranch u = .ok () := by
  unfold checkBranch
  rw [payload_of_live hx, ok_bind]
  cases x with
  | branchIf t c a b => rfl
  | _ => exact absurd hb (by simp [Payload.isBranchIf])

lemma complementAt_of_not (hx : f.live? i = some x) (hc : x.compares = false) :
    f.complementAt i = .ok none := by
  obtain ⟨s, hs, -, rfl⟩ := live?_eq_some.mp hx
  unfold complementAt
  rw [slot_eq_ok.mpr hs, ok_bind]
  cases hp : s.payload with
  | alu op l r =>
    rw [hp] at hc
    have hrel : op.isRelational = false := hc
    simp only [hrel]
    rfl
  | _ => rfl

lemma checkBranches_ok {us : List Id}
    (h : ∀ u ∈ us, ∃ x, f.live? u = some x ∧ x.isBranchIf = true) :
    us.forM f.checkBranch = .ok () := by
  induction us with
  | nil => rfl
  | cons u us ih =>
    obtain ⟨x, hx, hb⟩ := h u (by simp)
    have hrest := ih fun v hv => h v (by simp [hv])
    change (f.checkBranch u >>= fun _ => us.forM f.checkBranch) = .ok ()
    rw [checkBranch_ok hx hb, ok_bind, hrest]

lemma complementAt_eq {op : Op} {l r : Id} {s : Slot} (hs : f.at? i = some s) (hpay : s.payload = .alu op l r)
    (hrel : op.isRelational = true) (husers : ∀ u ∈ s.refs, ∃ x, f.live? u = some x ∧ x.isBranchIf = true) :
    f.complementAt i = (match op.complement? with
      | none => .ok none
      | some op' => do
        let f ← f.updateSlot i fun s => { s with payload := .alu op' l r }
        return some (← s.refs.foldlM swapTargets f)) := by
  unfold complementAt
  rw [slot_eq_ok.mpr hs, ok_bind]
  simp only [hpay, hrel, if_true]
  rw [checkBranches_ok husers, ok_bind]
  rfl

/-- A comparison of branches is replaced if it has a complement. An erased slot keeps its payload,
every other has the complemented one. -/
lemma complementAt_slots (hf : Tallied f) {op : Op} {l r : Id}
    (hx : f.live? i = some (.alu op l r)) (hrel : op.isRelational = true)
    (hbranch : ∀ u x, f.live? u = some x → i ∈ x.operands → x.isBranchIf = true) :
    (op.complement? = none ∧ f.complementAt i = .ok none) ∨
      ∃ g, op.complement?.isSome ∧ f.complementAt i = .ok (some g) ∧ SameFrame f g ∧
        g.blocks = f.blocks ∧ ∀ j, g.at? j = (f.at? j).map fun s =>
          { s with payload := if s.dead then s.payload else s.payload.complemented [i] j } := by
  obtain ⟨s, hs, hdead, hpay⟩ := live?_eq_some.mp hx
  have huser : ∀ u ∈ s.refs, ∃ x, f.live? u = some x ∧ i ∈ x.operands ∧ x.isBranchIf = true := by
    intro u hu
    obtain ⟨x, hxu, hmem⟩ := (hf.mem_refs_iff hs).mp hu
    exact ⟨x, hxu, hmem, hbranch u x hxu hmem⟩
  have hat := complementAt_eq hs hpay hrel fun u hu => (huser u hu).imp fun x hx => ⟨hx.1, hx.2.2⟩
  cases hop : op.complement? with
  | none => exact Or.inl ⟨rfl, by rw [hat, hop]⟩
  | some op' =>
    have hfirst := at?_amend (f := f) (nonneg_of_at? hs) fun s => { s with payload := .alu op' l r }
    set f₁ := f.amend i fun s => { s with payload := .alu op' l r } with hf₁
    have hplace : ∀ u ∈ s.refs, (f₁.at? u).isSome := by
      intro u hu
      obtain ⟨x, hxu, -⟩ := huser u hu
      have := at?_isSome_of_live hxu
      rw [hfirst]
      split <;> simpa using this
    obtain ⟨g, hfold, hframe, hblocks, hg⟩ :=
      swapAll_spec (refs_nodup_of_branches hf hs hbranch) hplace
    refine Or.inr ⟨g, rfl, ?_, (sameFrame_amend f i _).trans hframe, hblocks, fun j => ?_⟩
    · rw [hat, hop]
      simp only [updateSlot_eq hs, ← hf₁, ok_bind, hfold]
      rfl
    rw [hg, hfirst]
    cases hj : f.at? j with
    | none => simp
    | some t =>
      by_cases hji : j = i
      · subst hji
        obtain rfl : s = t := Option.some.inj (hs.symm.trans hj)
        have hnot : j ∉ s.refs := by
          intro hmem
          obtain ⟨x, hxj, -, hb⟩ := huser j hmem
          obtain rfl := Option.some.inj (hx.symm.trans hxj)
          simp [Payload.isBranchIf] at hb
        simp [hnot, hdead, hpay, Payload.complemented, hop]
      · by_cases hmem : j ∈ s.refs
        · obtain ⟨x, hxj, hop', hb⟩ := huser j hmem
          obtain ⟨t', ht', htd, rfl⟩ := live?_eq_some.mp hxj
          obtain rfl : t' = t := Option.some.inj (ht'.symm.trans hj)
          cases hp : t'.payload with
          | branchIf test c a b' =>
            rw [hp] at hop'
            obtain rfl : i = c := by simpa [Payload.operands] using hop'
            simp [hmem, hji, htd, hp, swapped, Payload.complemented]
          | _ => simp [hp, Payload.isBranchIf] at hb
        · have hsame : (if t.dead then t.payload else t.payload.complemented [i] j) = t.payload := by
            cases htd : t.dead with
            | true => rfl
            | false =>
              exact Payload.complemented_of_not hji fun h =>
                hmem ((hf.mem_refs_iff hs).mpr ⟨_, live?_eq_some.mpr ⟨t, hj, htd, rfl⟩, h⟩)
          simp only [hmem, hji, if_false, Option.map_some, hsame]

lemma complementAt_of_compares (hf : Sound f) {op : Op} {l r : Id}
    (hx : f.live? i = some (.alu op l r)) (hrel : op.isRelational = true)
    (hbranch : ∀ u x, f.live? u = some x → i ∈ x.operands → x.isBranchIf = true) :
    (op.complement? = none ∧ f.complementAt i = .ok none) ∨
      ∃ g, op.complement?.isSome ∧ f.complementAt i = .ok (some g) ∧
        Becomes f g (fun u => (f.live? u).map (·.complemented [i] u)) f.listing? := by
  refine (complementAt_slots hf.tallied hx hrel hbranch).imp_right ?_
  rintro ⟨g, hsome, hok, hframe, hblocks, hslots⟩
  refine ⟨g, hsome, hok, (Becomes.of_payloads hf _ hframe hblocks hslots ?_ ?_).congr
    (fun j => ?_) fun _ => rfl⟩
  · intro j s
    split <;> simp
  · intro j s
    split <;> simp
  · unfold live?
    cases f.at? j with
    | none => rfl
    | some s => cases hd : s.dead <;> simp [hd]

/-- Function `g` is `f` with the comparisons of `S` replaced. -/
structure Complements (f : Func) (S : List Id) (g : Func) : Prop where
  becomes : Becomes f g (fun u => (f.live? u).map (·.complemented S u)) f.listing?
  members : ∀ i ∈ S, ∃ op l r, f.live? i = some (.alu op l r) ∧ op.complement?.isSome

lemma Complements.refl (hf : Sound f) : Complements f [] f := by
  refine ⟨⟨SameFrame.refl f, hf, fun _ => rfl, rfl, fun j => ?_, fun _ => rfl⟩, by simp⟩
  simp only [Payload.complemented_nil, Option.map_id']

lemma Complements.live (h : Complements f S g) (hx : f.live? i = some x) :
    g.live? i = some (x.complemented S i) := by
  rw [h.becomes.live, hx]
  rfl

lemma Complements.live_cases (h : Complements f S g) {y : Payload} (hy : g.live? i = some y) :
    ∃ x, f.live? i = some x ∧ y = x.complemented S i := by
  rw [h.becomes.live] at hy
  obtain ⟨x, hx, rfl⟩ := Option.map_eq_some_iff.mp hy
  exact ⟨x, hx, rfl⟩

lemma OnlyBranches.complement (hf : f.OnlyBranches) (h : Complements f S g) : g.OnlyBranches := by
  intro u y d z hy hd hz hc
  obtain ⟨x, hx, rfl⟩ := h.live_cases hy
  obtain ⟨w, hw, rfl⟩ := h.live_cases hz
  simp only [Payload.operands_complemented, Payload.compares_complemented,
    Payload.isBranchIf_complemented] at hd hc ⊢
  exact hf hx hd hw hc

/-- Replacing one more comparison, if the instruction is one that has a complement. -/
lemma Complements.complementAt (h : Complements f S g) (hf : f.OnlyBranches)
    (hx : f.live? i = some x) :
    (g.complementAt i = .ok none ∧
        ∀ op l r, x = .alu op l r → op.complement?.isSome → i ∈ S) ∨
      ∃ g', g.complementAt i = .ok (some g') ∧ Complements f (i :: S) g' := by
  have hy := h.live hx
  have hsound := h.becomes.sound
  cases hc : x.compares with
  | false =>
    refine Or.inl ⟨complementAt_of_not hy (by simpa using hc), ?_⟩
    rintro op l r rfl hsome
    cases op <;> simp [Op.complement?] at hsome <;> simp [Payload.compares, Op.isRelational] at hc
  | true =>
    obtain ⟨op, l, r, rfl⟩ : ∃ op l r, x = .alu op l r := by
      cases x <;> simp [Payload.compares] at hc ⊢
    have hbranch : ∀ u y, g.live? u = some y → i ∈ y.operands → y.isBranchIf = true :=
      fun u y hu hi => hf.complement h hu hi hy (by simpa using hc)
    by_cases hi : i ∈ S
    · have hy' : g.live? i = some (.alu (op.complement?.getD op) l r) := by
        rw [hy, Payload.complemented, if_pos hi]
      have hrel : (op.complement?.getD op).isRelational = true := by
        rw [Payload.complement?_getD_isRelational]
        exact hc
      refine Or.inl ⟨?_, fun _ _ _ _ _ => hi⟩
      rcases complementAt_of_compares hsound hy' hrel hbranch with ⟨-, hnone⟩ | ⟨g', hsome, -⟩
      · exact hnone
      · rw [Payload.complement?_getD_none] at hsome
        cases hsome
    · have hy' : g.live? i = some (.alu op l r) := by
        rw [hy, Payload.complemented, if_neg hi]
      rcases complementAt_of_compares hsound hy' hc hbranch with ⟨hnone, hok⟩ | ⟨g', hsome, hok, hb⟩
      · refine Or.inl ⟨hok, ?_⟩
        rintro _ _ _ ⟨⟩ hs
        rw [hnone] at hs
        cases hs
      · refine Or.inr ⟨g', hok, (h.becomes.trans hb).congr (fun u => ?_) h.becomes.code, ?_⟩
        · rw [h.becomes.live]
          cases f.live? u with
          | none => rfl
          | some z => simp [Payload.complemented_cons hi]
        · intro j hj
          rcases List.mem_cons.mp hj with rfl | hj
          · exact ⟨op, l, r, hx, hsome⟩
          · exact h.members j hj

lemma Complements.code (h : Complements f S g) (hf : f.OnlyBranches) (n : Nat)
    (hl : ∀ i ∈ l, (f.live? i).isSome) :
    ∃ m g' S', l.foldlM (fun (n, f) id => do
        match ← f.complementAt id with
        | some f => return (n + 1, f)
        | none => return (n, f)) (n, g) = .ok (m, g') ∧
      Complements f S' g' ∧ S ⊆ S' ∧
      ∀ i ∈ l, ∀ op x y, f.live? i = some (.alu op x y) → op.complement?.isSome → i ∈ S' := by
  induction l generalizing n g S with
  | nil => exact ⟨n, g, S, rfl, h, fun _ hi => hi, by simp⟩
  | cons i l ih =>
    obtain ⟨x, hx⟩ := Option.isSome_iff_exists.mp (hl i (by simp))
    have hl' : ∀ j ∈ l, (f.live? j).isSome := fun j hj => hl j (by simp [hj])
    rcases h.complementAt hf hx with ⟨hok, hdone⟩ | ⟨g₁, hok, h₁⟩
    · obtain ⟨m, g', S', hfold, h', hsub, hall⟩ := ih h n hl'
      refine ⟨m, g', S', ?_, h', hsub, fun j hj op a b hj' hs => ?_⟩
      · rw [List.foldlM_cons]
        simp only [hok, ok_bind]
        exact hfold
      · rcases List.mem_cons.mp hj with rfl | hj
        · exact hsub (hdone op a b (Option.some.inj (hx.symm.trans hj')) hs)
        · exact hall j hj op a b hj' hs
    · obtain ⟨m, g', S', hfold, h', hsub, hall⟩ := ih h₁ (n + 1) hl'
      refine ⟨m, g', S', ?_, h', fun j hj => hsub (List.mem_cons_of_mem i hj),
        fun j hj op a b hj' hs => ?_⟩
      · rw [List.foldlM_cons]
        simp only [hok, ok_bind]
        exact hfold
      · rcases List.mem_cons.mp hj with rfl | hj
        · exact hsub (List.mem_cons_self)
        · exact hall j hj op a b hj' hs

lemma Complements.leads (h : Complements f S g) {c : BlockId} : g.Leads b c ↔ f.Leads b c := by
  constructor
  · rintro ⟨l, t, y, hl, ht, hy, hc⟩
    obtain ⟨x, hx, rfl⟩ := h.live_cases hy
    rw [h.becomes.code] at hl
    exact ⟨l, t, x, hl, ht, hx, Payload.mem_targets_complemented.mp hc⟩
  · rintro ⟨l, t, x, hl, ht, hx, hc⟩
    rw [← h.becomes.code] at hl
    exact ⟨l, t, _, hl, ht, h.live hx, Payload.mem_targets_complemented.mpr hc⟩

lemma Complements.reaches (h : Complements f S g) : g.Reaches b ↔ f.Reaches b := by
  have hleads : g.Leads = f.Leads := by
    funext b c
    exact propext h.leads
  unfold Reaches
  rw [hleads, h.becomes.frame.head.entry]

/-- All comparisons that control comes to can be tested. -/
structure Canonical (f : Func) (S : List Id) (g : Func) : Prop extends Complements f S g where
  all : ∀ {b l i op x y}, f.Reaches b → f.listing? b = some l → i ∈ l →
    f.live? i = some (.alu op x y) → op.complement?.isSome → i ∈ S

/-- Comparisons of branches can all be made testable. -/
theorem WellFormed.canonicalize_ok (hw : WellFormed f) (hf : Sound f) (hb : f.OnlyBranches) :
    ∃ n S g, f.canonicalize = .ok (n, g) ∧ Canonical f S g := by
  obtain ⟨⟨n, g⟩, visited, hwalk, ⟨S, hS, hdone⟩, -, hentry, hclosed⟩ :=
    walkFrom_ok (n := f.blocks.size) (fun (st : Nat × Func) b => st.2.successors b)
      canonicalizeBlock (E := f.Leads) (P := f.Reaches)
      (I := fun visited st => ∃ S, Complements f S st.2 ∧ ∀ b ∈ visited, ∀ l, f.listing? b = some l →
        ∀ i ∈ l, ∀ op x y, f.live? i = some (.alu op x y) → op.complement?.isSome → i ∈ S)
      (fun b hb => by
        obtain ⟨l, hl, -⟩ := hw.closes hb
        exact bounds_of_listing? hl)
      (fun b c hb hc => hb.tail hc)
      (fun visited st b hreach _ ⟨S, hS, hdone⟩ => by
        obtain ⟨l, hl, -⟩ := hw.closes hreach
        obtain ⟨m, g', S', hfold, h', hsub, hall⟩ := hS.code hb st.1 (l := l) fun i hi => by
          obtain ⟨x, hx, -⟩ := hf.live_of_mem hl hi
          simp [hx]
        obtain ⟨succs, hsuccs, hmem⟩ := h'.becomes.sound.successors ((h'.becomes.code b).trans hl)
        refine ⟨(m, g'), succs, ?_, ⟨S', h', fun c hc k hk i hi op x y hx hs => ?_⟩, hsuccs,
          fun c => (hmem c).trans h'.leads⟩
        · unfold canonicalizeBlock
          rw [show st.2.code b = .ok l.toArray from code_eq_ok.mpr ((hS.becomes.code b).trans hl), ok_bind]
          exact hfold
        · rcases List.mem_cons.mp hc with rfl | hc
          · obtain rfl := Option.some.inj (hl.symm.trans hk)
            exact hall i hi op x y hx hs
          · exact hsub (hdone c hc k hk i hi op x y hx hs))
      [] (0, f) [f.entry] ⟨[], Complements.refl hf, by simp⟩
      (by simp [Reaches, Relation.ReflTransGen.refl]) (by simp)
  refine ⟨n, S, g, ?_, hS, fun {b l i op x y} hreach hl hi hx hs => ?_⟩
  · unfold canonicalize walk
    rw [hwalk]
    rfl
  · exact hdone b (hreach.mem (hentry _ (by simp)) fun c hc => (hclosed c hc).2) l hl i hi op x y hx hs

section Orderly

variable {arity : Nat → Nat → Prop}

/-- The operands of an instruction of the code are variables, or values that come before it. -/
lemma Orderly.operand {opened : Set BlockId} (hf : Orderly arity opened f) {u d : Id}
    {pre post : List Id} (hl : f.listing? b = some (pre ++ u :: post)) (hx : f.live? u = some x)
    (hd : d ∈ x.operands) :
    (d ∈ f.locals ++ f.params ∧ (f.varOf? d).isSome) ∨
      d ∈ f.needs x ∧ d ∈ pre ∧ ∃ y, f.live? d = some y ∧ y.produces = true := by
  rcases (f.mem_operands_iff).mp hd with hd | hd
  · have havail := (hf.ready hl hx).subset hd
    exact Or.inr ⟨hd, (f.avail_sublist pre).subset havail, produces_of_mem_avail havail⟩
  · exact Or.inl ⟨hf.named hx d hd, hf.framed d (hf.named hx d hd)⟩

lemma asVar_of_operand {d : Id} (hd : d ∈ x.operands) : x.asVar = none := by
  cases x with
  | var v => simp [Payload.operands] at hd
  | _ => rfl

lemma Orderly.wellFormed (hf : Orderly arity ∅ f) : WellFormed f := by
  refine ⟨fun {b} hb => ?_, fun {u x} hx d hd => ?_, fun {b pre u post x} _ hl hx d hd => ?_⟩
  · have hsome : (f.listing? b).isSome := by
      rcases hb.cases_tail with rfl | ⟨c, -, l, t, x, -, -, hx, ht⟩
      · exact hf.entry
      · exact hf.targets hx b ht
    obtain ⟨l, hl⟩ := Option.isSome_iff_exists.mp hsome
    exact ⟨l, hl, hf.closes hl (Set.notMem_empty b)⟩
  · obtain ⟨b, l, hl, hu⟩ := hf.placed hx (asVar_of_operand hd)
    obtain ⟨pre, post, rfl⟩ := List.append_of_mem hu
    rcases hf.operand hl hx hd with ⟨hv, -⟩ | ⟨-, -, y, hy, -⟩
    · exact hf.alive d hv
    · rw [hy]
      rfl
  · exact (hf.operand hl hx hd).imp (fun h => h.2) fun h => h.2.1

lemma Orderly.onlyBranches (hf : Orderly arity ∅ f) : f.OnlyBranches := by
  intro u x d y hx hd hy hc
  obtain ⟨b, l, hl, hu⟩ := hf.placed hx (asVar_of_operand hd)
  obtain ⟨pre, post, rfl⟩ := List.append_of_mem hu
  rcases hf.operand hl hx hd with ⟨-, hv⟩ | ⟨hneeds, -⟩
  · rw [varOf?_of_live hy] at hv
    cases y <;> simp [Payload.compares, Payload.asVar] at hc hv
  · exact hf.tests hx hneeds hy hc

lemma Orderly.complement (hf : Orderly arity ∅ f) (h : Complements f S g) : Orderly arity ∅ g := by
  have hhead := h.becomes.frame.head
  have hcode := h.becomes.code
  have hneeds : ∀ x u, g.needs (x.complemented S u) = f.needs x := by
    intro x u
    rw [Payload.needs_complemented, needs_congr fun d _ => h.becomes.vars d]
  have hnamed : ∀ x u, g.named (x.complemented S u) = f.named x := by
    intro x u
    rw [Payload.named_complemented, named_congr fun d _ => h.becomes.vars d]
  refine ⟨h.becomes.sound, h.becomes.framed hf.framed, ?_, by simp, ?_, ?_, ?_, ?_, ?_, ?_, ?_, ?_,
    fun v hv => ?_⟩
  · rw [hcode, hhead.entry]
    exact hf.entry
  · intro b l hl hb
    rw [hcode] at hl
    exact (hf.closes hl hb).congr fun i _ x hx => ⟨_, h.live hx, Payload.isTerminal_complemented⟩
  · intro u y hy t ht
    obtain ⟨x, hx, rfl⟩ := h.live_cases hy
    rw [hcode]
    exact hf.targets hx t (Payload.mem_targets_complemented.mp ht)
  · intro u y hy
    obtain ⟨x, hx, rfl⟩ := h.live_cases hy
    rw [Payload.suits_complemented, hhead.isMain]
    exact hf.suits hx
  · intro u v hy
    obtain ⟨x, hx, heq⟩ := h.live_cases hy
    rcases Payload.complemented_cases S u x with hc | ⟨op, l, r, -, -, hc⟩ | ⟨t, c, a, b, -, -, hc⟩
    · rw [hc] at heq
      exact hf.unpaired (heq ▸ hx)
    · rw [hc] at heq
      cases heq
    · rw [hc] at heq
      cases heq
  · intro u y hy v hv
    obtain ⟨x, hx, rfl⟩ := h.live_cases hy
    rw [hnamed] at hv
    rw [hhead.locals, hhead.params]
    exact hf.named hx v hv
  · intro u y d z hy hd hz hc
    obtain ⟨x, hx, rfl⟩ := h.live_cases hy
    obtain ⟨w, hw, rfl⟩ := h.live_cases hz
    rw [hneeds] at hd
    rw [Payload.compares_complemented] at hc
    rw [Payload.isBranchIf_complemented]
    exact hf.tests hx hd hw hc
  · intro b pre u post y hl hy
    obtain ⟨x, hx, rfl⟩ := h.live_cases hy
    rw [hcode] at hl
    have havail : g.avail pre = f.avail pre := by
      refine avail_congr_kinds fun v _ => ?_
      rw [h.becomes.live]
      cases f.live? v <;> simp
    rw [hneeds, havail]
    exact hf.ready hl hx
  · intro u y hy hv
    obtain ⟨x, hx, rfl⟩ := h.live_cases hy
    obtain ⟨b, l, hl, hu⟩ := hf.placed hx (by simpa using hv)
    exact ⟨b, l, (hcode b).trans hl, hu⟩
  · rw [hhead.locals, hhead.params] at hv
    rw [h.becomes.live, Option.isSome_map]
    exact hf.alive v hv

/-- Orderly functions can be made testable. -/
theorem Orderly.canonicalize_ok (hf : Orderly arity ∅ f) :
    ∃ n S g, f.canonicalize = .ok (n, g) ∧ Canonical f S g :=
  hf.wellFormed.canonicalize_ok hf.sound hf.onlyBranches

end Orderly

end Func

end Accumulator.Flow
