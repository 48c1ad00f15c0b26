import Mathlib
import Accumulator.Proofs.Straight

/-!
# Branches to blocks that do not exist

The checks of a function walk over its blocks before they look at them. A branch to a block that does
not exist breaks the walk, so it is never reported as a defect. Apart from that the checks of a function
that was made by edits always come to their end.
-/

namespace Accumulator.Flow

/-- How a walk breaks at a block that does not exist. -/
def strayFault (b : BlockId) : Fault := if b < 0 then .block b else .outOfRange

/-- A walk breaks at a block that does not exist, or at one whose successors are not known. -/
lemma walkFrom_error {n : Nat} {next : BlockId → Except Fault (List BlockId)} {P : BlockId → Prop}
    {visited pending : List BlockId} {e : Fault}
    (hnext : ∀ b succs, P b → next b = .ok succs → ∀ c ∈ succs, P c) (hpending : ∀ b ∈ pending, P b)
    (h : walkFrom n (fun _ b => next b) (fun _ _ => .ok ()) visited () pending = .error e) :
    ∃ b, P b ∧ (0 ≤ b ∧ b < n ∧ next b = .error e ∨ ¬ (0 ≤ b ∧ b < n) ∧ e = strayFault b) := by
  generalize hs : () = s at h
  induction visited, s, pending using walkFrom.induct n (fun _ b => next b) (fun _ _ => .ok ()) with
  | case1 visited s =>
    rw [walkFrom] at h
    cases h
  | case2 visited s pending k =>
    rw [walkFrom] at h
    obtain rfl := Except.error.inj h
    have hneg := Int.negSucc_lt_zero k
    refine ⟨Int.negSucc k, hpending _ (by simp), Or.inr ⟨fun h => absurd h.1 (not_le.mpr hneg), ?_⟩⟩
    rw [strayFault, if_pos hneg]
  | case3 visited s pending k hv ih =>
    rw [walkFrom] at h
    simp only [hv, dite_true] at h
    exact ih (fun b hb => hpending b (by simp [hb])) hs h
  | case4 visited s pending k hv hk e' he => cases he
  | case5 visited s pending k hv hk s' e' hvisit he =>
    rw [walkFrom] at h
    simp only [hv, hk, dite_true, dite_false, he] at h
    obtain rfl := Except.error.inj h
    exact ⟨Int.ofNat k, hpending _ (by simp), Or.inl ⟨Int.natCast_nonneg k, Int.ofNat_lt.mpr hk, he⟩⟩
  | case6 visited s pending k hv hk s' succs hvisit hsuccs ih =>
    rw [walkFrom] at h
    simp only [hv, hk, dite_true, dite_false, hsuccs] at h
    refine ih (fun c hc => ?_) rfl h
    rcases List.mem_append.mp hc with hc | hc
    · exact hnext _ succs (hpending _ (by simp)) hsuccs c hc
    · exact hpending c (by simp [hc])
  | case7 visited s pending k hv hk =>
    rw [walkFrom] at h
    simp only [hv, hk, dite_false] at h
    obtain rfl := Except.error.inj h
    refine ⟨Int.ofNat k, hpending _ (by simp), Or.inr ⟨fun h => hk (Int.ofNat_lt.mp h.2), ?_⟩⟩
    exact (if_neg (not_lt.mpr (Int.natCast_nonneg k))).symm

namespace Check

variable {α β : Type} {x : Check α} {f : α → Check β}

/-- A check comes to its end and reports no branch to a block that does not exist. -/
def Concludes (x : Check α) : Prop := ∃ r, x.run = .ok r ∧ ∀ b c, r ≠ .error (.badSuccessor b c)

lemma Passes.concludes {a : α} (h : Passes x a) : Concludes x := ⟨.ok a, h, by simp⟩

lemma concludes_pure (a : α) : Concludes (pure a : Check α) := (passes_pure.mpr rfl).concludes

lemma concludes_throw {d : Defect} (hd : ∀ b c, d ≠ .badSuccessor b c) :
    Concludes (throw d : Check α) :=
  ⟨.error d, rfl, fun b c h => hd b c (Except.error.inj h)⟩

lemma concludes_bind (hx : Concludes x) (hf : ∀ a, Passes x a → Concludes (f a)) :
    Concludes (x >>= f) := by
  obtain ⟨r, hr, hne⟩ := hx
  unfold Concludes
  rw [ExceptT.run_bind, hr]
  cases r with
  | error d => exact ⟨.error d, rfl, fun b c h => hne b c (by rw [Except.error.inj h])⟩
  | ok a => exact hf a hr

lemma concludes_lift {y : Except Fault α} {a : α} (h : y = .ok a) :
    Concludes (liftM y : Check α) :=
  (passes_lift.mpr h).concludes

lemma concludes_forM {l : List α} {f : α → Check PUnit} (h : ∀ a ∈ l, Concludes (f a)) :
    Concludes (l.forM f) := by
  induction l with
  | nil => exact concludes_pure _
  | cons a l ih =>
    change Concludes (f a >>= fun _ => l.forM f)
    exact concludes_bind (h a (by simp)) fun _ _ => ih fun b hb => h b (by simp [hb])

lemma concludes_ite {c : Prop} [Decidable c] {y : Check α} (hy : c → Concludes y)
    (hx : ¬ c → Concludes x) : Concludes (if c then y else x) := by
  by_cases h : c
  · rw [if_pos h]
    exact hy h
  · rw [if_neg h]
    exact hx h

lemma concludes_guard {c : Prop} [Decidable c] {d : Defect} {k : β → Check α}
    (hd : ∀ b c, d ≠ .badSuccessor b c) (hx : ¬ c → Concludes x) :
    Concludes (if c then throw d >>= k else x) :=
  concludes_ite (fun _ => concludes_bind (concludes_throw hd) fun _ ha => (passes_throw.mp ha).elim) hx

end Check

namespace Func

open Check

variable {f : Func} {b : BlockId} {blocks : List BlockId} {u op : Id} {s : Slot}

lemma Sound.concludes_checkCode (hf : Sound f) {l : List Id} (hl : f.listing? b = some l)
    {code : List Id} (hsub : ∀ i ∈ code, i ∈ l) : Concludes (f.checkCode b code) := by
  induction code with
  | nil => exact concludes_pure _
  | cons i rest ih =>
    refine concludes_bind ?_ fun _ _ => ih fun j hj => hsub j (by simp [hj])
    obtain ⟨t, ht, -⟩ := hf.code hl i (hsub i (by simp))
    refine concludes_bind (concludes_lift (slot_eq_ok.mpr ht)) fun t' _ => ?_
    refine concludes_guard (by simp) fun _ => concludes_guard (by simp) fun _ => ?_
    cases t'.payload with
    | var v => exact concludes_throw (by simp)
    | _ => exact concludes_ite (fun _ => concludes_throw (by simp)) fun _ => concludes_pure _

lemma Sound.concludes_checkBlock (hf : Sound f) {l : List Id} (hl : f.listing? b = some l)
    (hnext : ∀ c, f.Leads b c → (f.listing? c).isSome) : Concludes (f.checkBlock b) := by
  have hcode : f.code b = .ok l.toArray := code_eq_ok.mpr hl
  obtain ⟨succs, hsuccs, hmem⟩ := hf.successors hl
  refine concludes_bind (concludes_lift hcode) fun code hcode' => ?_
  obtain rfl : l.toArray = code := Except.ok.inj (hcode.symm.trans (passes_lift.mp hcode'))
  refine concludes_guard (by simp) fun _ => ?_
  refine concludes_bind (hf.concludes_checkCode hl fun _ h => h) fun _ _ => ?_
  refine concludes_bind (concludes_lift hsuccs) fun succs' hsuccs' => ?_
  obtain rfl : succs = succs' := Except.ok.inj (hsuccs.symm.trans (passes_lift.mp hsuccs'))
  have hloop : ∀ c ∈ succs, ¬ (c < 0 ∨ f.blocks.size ≤ c) := by
    intro c hc
    obtain ⟨m, hm⟩ := Option.isSome_iff_exists.mp (hnext c ((hmem c).mp hc))
    rw [not_or, not_lt, not_le]
    exact bounds_of_listing? hm
  obtain ⟨_, hpasses⟩ := (passes_forIn (d := fun c => Defect.badSuccessor b c)).mpr hloop
  exact concludes_bind hpasses.concludes fun _ _ => concludes_pure _

lemma concludes_checkOperand : Concludes (f.checkOperand blocks u s op) := by
  unfold checkOperand
  refine concludes_guard (by simp) fun hop => ?_
  rw [not_or, not_lt, not_le] at hop
  obtain ⟨d, hd⟩ := Option.isSome_iff_exists.mp (at?_isSome.mpr hop)
  refine concludes_bind (concludes_lift (slot_eq_ok.mpr hd)) fun d' _ => ?_
  refine concludes_guard (by simp) fun _ => concludes_guard (by simp) fun _ => ?_
  unfold checkOrder
  cases d'.payload with
  | var v => exact concludes_pure _
  | _ =>
    cases f.index? blocks u with
    | none => exact concludes_pure _
    | some i => exact concludes_ite (fun _ => concludes_throw (by simp)) fun _ => concludes_pure _

lemma Sound.concludes_checkSlot (hf : Sound f) (hs : f.at? u = some s) :
    Concludes (f.checkSlot blocks u s) := by
  unfold checkSlot
  split
  · exact concludes_ite (fun _ => concludes_throw (by simp)) fun _ => concludes_pure _
  · refine concludes_bind (concludes_forM fun _ _ => concludes_checkOperand) fun _ _ => ?_
    refine concludes_forM fun user huser => ?_
    obtain ⟨x, hx, -⟩ := (hf.mem_refs_iff hs).mp huser
    obtain ⟨t, ht, -⟩ := live?_eq_some.mp hx
    refine concludes_bind (concludes_lift (slot_eq_ok.mpr ht)) fun t' _ => ?_
    exact concludes_ite (fun _ => concludes_throw (by simp)) fun _ => concludes_pure _

lemma Sound.leads_of_successors (hf : Sound f) {succs : List BlockId} (h : f.successors b = .ok succs) :
    (f.listing? b).isSome ∧ ∀ c, c ∈ succs ↔ f.Leads b c := by
  cases hcode : f.code b with
  | error e =>
    unfold Func.successors terminator? at h
    rw [hcode] at h
    cases h
  | ok code =>
    have hl := code_eq_ok.mp hcode
    obtain ⟨succs', hsuccs', hmem⟩ := hf.successors hl
    obtain rfl : succs = succs' := Except.ok.inj (h.symm.trans hsuccs')
    exact ⟨by rw [hl]; rfl, hmem⟩

lemma Sound.exists_of_reachable (hf : Sound f) (h : f.reachable = .ok blocks) (hb : b ∈ blocks) :
    (f.listing? b).isSome ∧ ∀ c, f.Leads b c → c ∈ blocks := by
  unfold reachable at h
  rw [bind_eq_ok] at h
  obtain ⟨v, hwalk, h⟩ := h
  obtain rfl : v.2.reverse = blocks := Except.ok.inj h
  obtain ⟨-, -, hclosed⟩ := walkFrom_closed hwalk
  obtain ⟨succs, hsuccs, hall⟩ := (hclosed b (List.mem_reverse.mp hb)).resolve_left (by simp)
  obtain ⟨hsome, hmem⟩ := hf.leads_of_successors hsuccs
  exact ⟨hsome, fun c hc => List.mem_reverse.mpr (hall c ((hmem c).mpr hc))⟩

lemma Sound.reachable_error (hf : Sound f) {e : Fault} (h : f.reachable = .error e) :
    ∃ b, f.Reaches b ∧ f.listing? b = none ∧ e = strayFault b := by
  have hwalk : walkFrom f.blocks.size (fun _ b => f.successors b) (fun _ _ => .ok ()) [] () [f.entry] =
      .error e := by
    rw [reachable, bind_eq_error] at h
    refine h.resolve_right ?_
    rintro ⟨v, -, hv⟩
    cases hv
  have hnext : ∀ b succs, f.Reaches b → f.successors b = .ok succs → ∀ c ∈ succs, f.Reaches c :=
    fun b succs hb hok c hc => hb.tail (((hf.leads_of_successors hok).2 c).mp hc)
  have hentry : ∀ b ∈ [f.entry], f.Reaches b := by
    intro b hb
    rw [List.mem_singleton.mp hb]
    exact Relation.ReflTransGen.refl
  obtain ⟨b, hreach, ⟨hnn, hlt, herr⟩ | ⟨hout, rfl⟩⟩ := walkFrom_error hnext hentry hwalk
  · obtain ⟨l, hl⟩ := Option.isSome_iff_exists.mp (listing?_isSome.mpr ⟨hnn, hlt⟩)
    obtain ⟨succs, hok, -⟩ := hf.successors hl
    cases hok.symm.trans herr
  · exact ⟨b, hreach, Option.not_isSome_iff_eq_none.mp fun h => hout (listing?_isSome.mp h), rfl⟩

/-- The checks come to their end if there is no entry or the walk does not break. If it does, they break
as the walk does. -/
lemma Sound.verify_cases (hf : Sound f) :
    Concludes f.check ∧ (f.entry = noBlock ∨ ∃ blocks, f.reachable = .ok blocks) ∨
      f.entry ≠ noBlock ∧ ∃ e, f.reachable = .error e ∧ f.verify = .error e := by
  by_cases hentry : f.entry = noBlock
  · refine Or.inl ⟨?_, Or.inl hentry⟩
    unfold check
    exact concludes_guard (by simp) fun h => absurd hentry h
  · cases hblocks : f.reachable with
    | error e =>
      refine Or.inr ⟨hentry, e, rfl, ?_⟩
      unfold verify check
      rw [if_neg hentry, hblocks]
      rfl
    | ok blocks =>
      refine Or.inl ⟨?_, Or.inr ⟨blocks, rfl⟩⟩
      unfold check
      refine concludes_guard (by simp) fun _ => ?_
      refine concludes_bind (concludes_lift hblocks) fun blocks' hblocks' => ?_
      obtain rfl : blocks = blocks' := Except.ok.inj (hblocks.symm.trans (passes_lift.mp hblocks'))
      refine concludes_bind (concludes_forM fun b hb => ?_) fun _ _ => concludes_forM ?_
      · obtain ⟨hsome, hnext⟩ := hf.exists_of_reachable hblocks hb
        obtain ⟨l, hl⟩ := Option.isSome_iff_exists.mp hsome
        exact hf.concludes_checkBlock hl fun c hc => (hf.exists_of_reachable hblocks (hnext c hc)).1
      · rintro ⟨s, k⟩ hmem
        exact hf.concludes_checkSlot (mem_zipIdx_iff.mp hmem)

/-- The checks of a function that was made by edits break exactly if it has an entry and control may come
to a block that does not exist, and they break as the walk does at such a block. A branch to a block that
does not exist is never reported as a defect. -/
theorem Made.verify_breaks_iff (h : Made f) :
    ((∃ e, f.verify = .error e) ↔ f.entry ≠ noBlock ∧ ∃ b, f.Reaches b ∧ f.listing? b = none) ∧
      (∀ e, f.verify = .error e → ∃ b, f.Reaches b ∧ f.listing? b = none ∧ e = strayFault b) ∧
      ∀ b c, f.verify ≠ .ok (.error (.badSuccessor b c)) := by
  obtain ⟨hf, -⟩ := h.sound
  rcases hf.verify_cases with ⟨⟨r, hr, hne⟩, hwalk⟩ | ⟨hentry, e, hwalk, he⟩
  · have hends : ∀ e, f.verify ≠ .error e := fun e he => by cases hr.symm.trans he
    refine ⟨⟨fun ⟨e, he⟩ => absurd he (hends e), ?_⟩, fun e he => absurd he (hends e), fun b c hbc => ?_⟩
    · rintro ⟨hentry, b, hb, hnone⟩
      obtain ⟨blocks, hblocks⟩ := hwalk.resolve_left hentry
      have hsome := (hf.exists_of_reachable hblocks (hf.reaches_of_reachable hblocks hb)).1
      rw [hnone] at hsome
      cases hsome
    · exact hne b c (Except.ok.inj (hr.symm.trans hbc))
  · obtain ⟨b, hb, hnone, rfl⟩ := hf.reachable_error hwalk
    refine ⟨⟨fun _ => ⟨hentry, b, hb, hnone⟩, fun _ => ⟨_, he⟩⟩, fun e' he' => ?_, fun b' c hbc => ?_⟩
    · exact ⟨b, hb, hnone, Except.error.inj (he'.symm.trans he)⟩
    · cases he.symm.trans hbc

/-- A main function whose one block leads to a block that it does not have. -/
def straying : Func :=
  { name := "main"
    isMain := true
    entry := 0
    blocks := #[#[0]]
    slots := #[{ payload := .branch 5, block := 0 }] }

lemma straying_made : Made straying := Made.straight [] [.branch 5] (by decide)

lemma straying_leads : straying.Leads 0 5 := ⟨[0], 0, .branch 5, rfl, rfl, rfl, by decide⟩

/-- The entry of the function can be reached, so its branch should be reported. -/
theorem straying_verify :
    Made straying ∧ straying.Leads straying.entry 5 ∧ straying.listing? 5 = none ∧
      straying.verify = .error .outOfRange := by
  have hsuccs : straying.successors 0 = .ok [5] := by decide
  have hwalk : walkFrom 1 (fun _ b => straying.successors b) (fun _ _ => .ok ()) [] () [0] =
      .error .outOfRange := by
    calc walkFrom 1 (fun (_ : Unit) b => straying.successors b) (fun _ _ => .ok ()) [] () [0]
      _ = walkFrom 1 (fun _ b => straying.successors b) (fun _ _ => .ok ()) [0] () [Int.ofNat 5] :=
        walkFrom_cons (n := 1) (fun _ b => straying.successors b) (fun _ _ => .ok ()) (by decide)
          List.not_mem_nil rfl hsuccs
      _ = .error .outOfRange := by
        rw [walkFrom]
        simp
  refine ⟨straying_made, straying_leads, rfl, ?_⟩
  unfold verify check reachable
  rw [if_neg (by decide)]
  change (ExceptT.lift (walkFrom 1 _ _ [] () [0] >>= _) >>= _ : Check Unit).run = _
  rw [hwalk]
  rfl

/-- Control comes from the entry to a block that does not exist, so the checks break. -/
theorem straying_breaks :
    Made straying ∧ straying.Reaches 5 ∧ straying.listing? 5 = none ∧
      ∃ e, straying.verify = .error e := by
  have hreaches : straying.Reaches 5 := Relation.ReflTransGen.single straying_leads
  exact ⟨straying_made, hreaches, rfl,
    straying_made.verify_breaks_iff.1.mpr ⟨by decide, 5, hreaches, rfl⟩⟩

end Func

end Accumulator.Flow
