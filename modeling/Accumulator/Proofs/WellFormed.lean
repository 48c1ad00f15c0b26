import Mathlib
import Accumulator.Flow.Check
import Accumulator.Proofs.Editing

/-!
# Well-formed functions

`WellFormed` says what the checks of a function ask for: every block that can be reached has code
that ends in its only terminal instruction, operands were not erased, and a value is computed
earlier in the block that uses it. A sound function passes the checks exactly if it is well formed.
-/

namespace Accumulator.Flow

section Walk

variable {σ : Type} {n : Nat} (next : σ → BlockId → Except Fault (List BlockId))
  (visit : σ → BlockId → Except Fault σ)

lemma walkFrom_cons {visited pending succs : List BlockId} {s s' : σ} {b : BlockId}
    (hb : 0 ≤ b ∧ b < n) (hv : b ∉ visited) (hvisit : visit s b = .ok s')
    (hnext : next s' b = .ok succs) :
    walkFrom n next visit visited s (b :: pending) =
      walkFrom n next visit (b :: visited) s' (succs ++ pending) := by
  obtain ⟨k, rfl⟩ := Int.eq_ofNat_of_zero_le hb.1
  have hk : k < n := Int.ofNat_lt.mp hb.2
  change walkFrom n next visit visited s (Int.ofNat k :: pending) = _
  rw [walkFrom]
  simp only [Int.ofNat_eq_natCast, hv, hk, dite_true, dite_false, hvisit, hnext]

lemma walkFrom_cons_error {visited pending : List BlockId} {s : σ} {b : BlockId} {e : Fault}
    (hb : 0 ≤ b ∧ b < n) (hv : b ∉ visited) (hvisit : visit s b = .error e) :
    walkFrom n next visit visited s (b :: pending) = .error e := by
  obtain ⟨k, rfl⟩ := Int.eq_ofNat_of_zero_le hb.1
  have hk : k < n := Int.ofNat_lt.mp hb.2
  change walkFrom n next visit visited s (Int.ofNat k :: pending) = _
  rw [walkFrom]
  simp only [Int.ofNat_eq_natCast, hv, hk, dite_true, dite_false, hvisit]

/-- A walk over a set of blocks that is closed under `E`. Each visit extends an invariant of the
visited blocks, and may change the order of the edges but not the edges. Where `A` holds a visit may
also break, and the walk with it. -/
lemma walkFrom_cases {A : Prop} {E : BlockId → BlockId → Prop} {P : BlockId → Prop}
    {I : List BlockId → σ → Prop} (hP : ∀ b, P b → 0 ≤ b ∧ b < n) (hE : ∀ b c, P b → E b c → P c)
    (hI : ∀ visited s b, P b → b ∉ visited → I visited s → (A ∧ ∃ e, visit s b = .error e) ∨
      ∃ s' succs, visit s b = .ok s' ∧ I (b :: visited) s' ∧ next s' b = .ok succs ∧
        ∀ c, c ∈ succs ↔ E b c)
    (visited : List BlockId) (s : σ) (pending : List BlockId) (hs : I visited s)
    (hpending : ∀ b ∈ pending, P b)
    (hclosed : ∀ b ∈ visited, P b ∧ ∀ c, E b c → c ∈ visited ∨ c ∈ pending) :
    (A ∧ ∃ e, walkFrom n next visit visited s pending = .error e) ∨
      ∃ s' visited', walkFrom n next visit visited s pending = .ok (s', visited') ∧
        I visited' s' ∧ (∀ b ∈ visited, b ∈ visited') ∧ (∀ b ∈ pending, b ∈ visited') ∧
        ∀ b ∈ visited', P b ∧ ∀ c, E b c → c ∈ visited' := by
  induction visited, s, pending using walkFrom.induct n next visit with
  | case1 visited s =>
    refine Or.inr ⟨s, visited, by rw [walkFrom], hs, fun _ h => h, by simp, fun b hb => ?_⟩
    exact ⟨(hclosed b hb).1, fun c hc => ((hclosed b hb).2 c hc).resolve_right (by simp)⟩
  | case2 visited s pending k =>
    have := (hP _ (hpending (Int.negSucc k) (by simp))).1
    exact absurd this (by simp)
  | case3 visited s pending k hv ih =>
    have hwalk : walkFrom n next visit visited s (Int.ofNat k :: pending) =
        walkFrom n next visit visited s pending := by
      rw [walkFrom]
      simp only [hv, dite_true]
    rw [hwalk]
    refine (ih hs (fun b hb => hpending b (by simp [hb])) fun b hb => ?_).imp_right ?_
    · refine ⟨(hclosed b hb).1, fun c hc => ?_⟩
      rcases (hclosed b hb).2 c hc with h | h
      · exact Or.inl h
      · rcases List.mem_cons.mp h with rfl | h
        · exact Or.inl hv
        · exact Or.inr h
    · rintro ⟨s', visited', hok, hs', hsub, hpend, hall⟩
      refine ⟨s', visited', hok, hs', hsub, fun b hb => ?_, hall⟩
      rcases List.mem_cons.mp hb with rfl | hb
      · exact hsub _ hv
      · exact hpend b hb
  | case4 visited s pending k hv hk e he =>
    rcases hI visited s k (hpending _ (by simp)) hv hs with ⟨hA, -⟩ | ⟨s', succs, hvisit, -⟩
    · exact Or.inl ⟨hA, e, walkFrom_cons_error next visit (hP _ (hpending _ (by simp))) hv he⟩
    · exact absurd (hvisit.symm.trans he) (by simp)
  | case5 visited s pending k hv hk s' e hvisit he =>
    rcases hI visited s k (hpending _ (by simp)) hv hs with ⟨-, e', h⟩ | ⟨t, succs, ht, -, hnext, -⟩
    · exact absurd (h.symm.trans hvisit) (by simp)
    · obtain rfl : t = s' := Except.ok.inj (ht.symm.trans hvisit)
      exact absurd (hnext.symm.trans he) (by simp)
  | case6 visited s pending k hv hk s' succs hvisit hnext ih =>
    have hPk := hpending _ (List.mem_cons_self (a := (k : Int)))
    obtain ⟨hIt, hE'⟩ : I ((k : Int) :: visited) s' ∧ ∀ c, c ∈ succs ↔ E k c := by
      rcases hI visited s k hPk hv hs with ⟨-, e, h⟩ | ⟨t, succs', ht, hIt, hnext', hE'⟩
      · exact absurd (h.symm.trans hvisit) (by simp)
      · obtain rfl : t = s' := Except.ok.inj (ht.symm.trans hvisit)
        obtain rfl : succs' = succs := Except.ok.inj (hnext'.symm.trans hnext)
        exact ⟨hIt, hE'⟩
    have hwalk : walkFrom n next visit visited s (Int.ofNat k :: pending) =
        walkFrom n next visit ((k : Int) :: visited) s' (succs ++ pending) :=
      walkFrom_cons next visit (hP _ hPk) hv hvisit hnext
    rw [hwalk]
    refine (ih hIt (fun b hb => ?_) fun b hb => ?_).imp_right ?_
    · rcases List.mem_append.mp hb with h | h
      · exact hE _ b hPk ((hE' b).mp h)
      · exact hpending b (by simp [h])
    · rcases List.mem_cons.mp hb with rfl | hb
      · exact ⟨hPk, fun c hc => Or.inr (by simp [(hE' c).mpr hc])⟩
      · refine ⟨(hclosed b hb).1, fun c hc => ?_⟩
        rcases (hclosed b hb).2 c hc with h | h
        · exact Or.inl (by simp [h])
        · rcases List.mem_cons.mp h with rfl | h
          · exact Or.inl (by simp)
          · exact Or.inr (by simp [h])
    · rintro ⟨s', visited', hok, hs', hsub, hpend, hall⟩
      refine ⟨s', visited', hok, hs', fun b hb => hsub b (by simp [hb]), fun b hb => ?_, hall⟩
      rcases List.mem_cons.mp hb with rfl | hb
      · exact hsub _ (by simp)
      · exact hpend b (by simp [hb])
  | case7 visited s pending k hv hk =>
    have := (hP _ (hpending (Int.ofNat k) (by simp))).2
    exact absurd (by simpa using this) hk

lemma walkFrom_ok {E : BlockId → BlockId → Prop} {P : BlockId → Prop} {I : List BlockId → σ → Prop}
    (hP : ∀ b, P b → 0 ≤ b ∧ b < n) (hE : ∀ b c, P b → E b c → P c)
    (hI : ∀ visited s b, P b → b ∉ visited → I visited s → ∃ s' succs, visit s b = .ok s' ∧
      I (b :: visited) s' ∧ next s' b = .ok succs ∧ ∀ c, c ∈ succs ↔ E b c)
    (visited : List BlockId) (s : σ) (pending : List BlockId) (hs : I visited s)
    (hpending : ∀ b ∈ pending, P b)
    (hclosed : ∀ b ∈ visited, P b ∧ ∀ c, E b c → c ∈ visited ∨ c ∈ pending) :
    ∃ s' visited', walkFrom n next visit visited s pending = .ok (s', visited') ∧
      I visited' s' ∧ (∀ b ∈ visited, b ∈ visited') ∧ (∀ b ∈ pending, b ∈ visited') ∧
      ∀ b ∈ visited', P b ∧ ∀ c, E b c → c ∈ visited' :=
  (walkFrom_cases next visit hP hE (fun visited s b hb hnew h => Or.inr (hI visited s b hb hnew h))
    visited s pending hs hpending hclosed).resolve_left fun h : False ∧ _ => h.1

lemma walkFrom_closed {next : BlockId → Except Fault (List BlockId)} {visited pending : List BlockId}
    {v : Unit × List BlockId}
    (h : walkFrom n (fun _ b => next b) (fun _ _ => .ok ()) visited () pending = .ok v) :
    (∀ b ∈ visited, b ∈ v.2) ∧ (∀ b ∈ pending, b ∈ v.2) ∧
      ∀ b ∈ v.2, b ∈ visited ∨ ∃ succs, next b = .ok succs ∧ ∀ c ∈ succs, c ∈ v.2 := by
  generalize hs : () = s at h
  induction visited, s, pending using walkFrom.induct n (fun _ b => next b) (fun _ _ => .ok ()) with
  | case1 visited s =>
    rw [walkFrom] at h
    obtain rfl := Except.ok.inj h
    exact ⟨fun _ hb => hb, by simp, fun _ hb => Or.inl hb⟩
  | case2 visited s pending k =>
    rw [walkFrom] at h
    simp at h
  | case3 visited s pending k hv ih =>
    rw [walkFrom] at h
    simp only [hv, dite_true] at h
    obtain ⟨hsub, hpend, hall⟩ := ih hs h
    refine ⟨hsub, fun b hb => ?_, hall⟩
    rcases List.mem_cons.mp hb with rfl | hb
    · exact hsub _ hv
    · exact hpend b hb
  | case4 visited s pending k hv hk e he => simp at he
  | case5 visited s pending k hv hk s' e hvisit he =>
    rw [walkFrom] at h
    simp only [hv, hk, dite_true, dite_false, he, reduceCtorEq] at h
  | case6 visited s pending k hv hk s' succs hvisit hnext ih =>
    rw [walkFrom] at h
    simp only [hv, hk, dite_true, dite_false, hnext] at h
    obtain ⟨hsub, hpend, hall⟩ := ih rfl h
    refine ⟨fun b hb => hsub b (by simp [hb]), fun b hb => ?_, fun b hb => ?_⟩
    · rcases List.mem_cons.mp hb with rfl | hb
      · exact hsub _ (by simp)
      · exact hpend b (by simp [hb])
    · rcases hall b hb with h | h
      · rcases List.mem_cons.mp h with rfl | h
        · exact Or.inr ⟨succs, hnext, fun c hc => hpend c (by simp [hc])⟩
        · exact Or.inl h
      · exact Or.inr h
  | case7 visited s pending k hv hk =>
    rw [walkFrom] at h
    simp [hv, hk] at h

/-- A walk whose way does not depend on the state visits the blocks in an order of their own. -/
lemma walkFrom_foldlM {next : BlockId → Except Fault (List BlockId)}
    {visit : σ → BlockId → Except Fault σ} {visited pending : List BlockId} {s : σ}
    {r : σ × List BlockId}
    (h : walkFrom n (fun _ b => next b) visit visited s pending = .ok r) (hnodup : visited.Nodup) :
    walkFrom n (fun _ b => next b) (fun _ _ => .ok ()) visited () pending = .ok ((), r.2) ∧
      r.2.Nodup ∧ ∃ new : List BlockId, r.2 = new.reverse ++ visited ∧ new.foldlM visit s = .ok r.1 := by
  induction visited, s, pending using walkFrom.induct n (fun _ b => next b) visit with
  | case1 visited s =>
    rw [walkFrom] at h ⊢
    obtain rfl := Except.ok.inj h
    exact ⟨rfl, hnodup, [], rfl, rfl⟩
  | case2 visited s pending k =>
    rw [walkFrom] at h
    simp at h
  | case3 visited s pending k hv ih =>
    rw [walkFrom] at h ⊢
    simp only [hv, dite_true] at h ⊢
    exact ih h hnodup
  | case4 visited s pending k hv hk e he =>
    rw [walkFrom] at h
    simp only [hv, hk, dite_true, dite_false, he, reduceCtorEq] at h
  | case5 visited s pending k hv hk s' e hvisit he =>
    rw [walkFrom] at h
    simp only [hv, hk, dite_true, dite_false, hvisit, he, reduceCtorEq] at h
  | case6 visited s pending k hv hk s' succs hvisit hnext ih =>
    rw [walkFrom] at h ⊢
    simp only [hv, hk, dite_true, dite_false, hvisit, hnext] at h ⊢
    obtain ⟨hwalk, hnd, new, hnew, hfold⟩ := ih h (List.nodup_cons.mpr ⟨hv, hnodup⟩)
    refine ⟨hwalk, hnd, Int.ofNat k :: new, by simp [hnew], ?_⟩
    rw [List.foldlM_cons, hvisit]
    exact hfold
  | case7 visited s pending k hv hk =>
    rw [walkFrom] at h
    simp [hv, hk] at h

end Walk

namespace Check

variable {α β δ : Type}

/-- A check that ends well, with an answer. -/
def Passes (x : ExceptT δ (Except Fault) α) (a : α) : Prop := x.run = .ok (.ok a)

lemma passes_bind {x : ExceptT δ (Except Fault) α} {f : α → ExceptT δ (Except Fault) β}
    {b : β} :
    Passes (x >>= f) b ↔ ∃ a, Passes x a ∧ Passes (f a) b := by
  unfold Passes
  rw [ExceptT.run_bind]
  rcases x.run with e | (d | a)
  · simp
  · simp
  · simp

lemma passes_seq {x : ExceptT δ (Except Fault) PUnit} {f : PUnit → ExceptT δ (Except Fault) β}
    {b : β} :
    Passes (x >>= f) b ↔ Passes x ⟨⟩ ∧ Passes (f ⟨⟩) b := by
  rw [passes_bind]
  exact ⟨fun ⟨_, h⟩ => h, fun h => ⟨⟨⟩, h⟩⟩

@[simp] lemma passes_pure {a b : α} :
    Passes (pure a : ExceptT δ (Except Fault) α) b ↔ a = b := by
  simp [Passes]

@[simp] lemma passes_throw {d : δ} {a : α} :
    Passes (throw d : ExceptT δ (Except Fault) α) a ↔ False := by
  simp [Passes]

@[simp] lemma passes_lift {x : Except Fault α} {a : α} :
    Passes (liftM x : ExceptT δ (Except Fault) α) a ↔ x = .ok a := by
  unfold Passes
  cases x with
  | error e => simp [liftM, monadLift, MonadLift.monadLift, ExceptT.lift]
  | ok b => simp

lemma passes_forM {l : List α} {f : α → ExceptT δ (Except Fault) PUnit} :
    Passes (l.forM f) ⟨⟩ ↔ ∀ a ∈ l, Passes (f a) ⟨⟩ := by
  induction l with
  | nil => simp
  | cons a l ih =>
    change Passes (f a >>= fun _ => l.forM f) ⟨⟩ ↔ _
    rw [passes_seq, List.forall_mem_cons, ← ih]

lemma passes_ite {c : Prop} [Decidable c] {d : δ} {x : ExceptT δ (Except Fault) α}
    {a : α} :
    Passes (if c then throw d else x) a ↔ ¬ c ∧ Passes x a := by
  by_cases h : c <;> simp [h]

lemma passes_guard {c : Prop} [Decidable c] {d : δ} {k : β → ExceptT δ (Except Fault) α}
    {x : ExceptT δ (Except Fault) α} {a : α} :
    Passes (if c then throw d >>= k else x) a ↔ ¬ c ∧ Passes x a := by
  by_cases h : c <;> simp [h]

lemma passes_forIn {l : List α} {p : α → Prop} [DecidablePred p] {d : α → δ} :
    (∃ u, Passes ((forIn l PUnit.unit fun a _ =>
      if p a then do
        throw (d a)
        pure (ForInStep.yield PUnit.unit)
      else pure (ForInStep.yield PUnit.unit) : ExceptT δ (Except Fault) PUnit)) u) ↔
      ∀ a ∈ l, ¬ p a := by
  induction l with
  | nil => simp
  | cons a l ih =>
    simp only [List.forIn_cons, passes_bind, passes_guard, passes_pure, List.forall_mem_cons, ← ih]
    constructor
    · rintro ⟨u, _, ⟨h, rfl⟩, h'⟩
      exact ⟨h, u, h'⟩
    · rintro ⟨h, u, h'⟩
      exact ⟨u, _, ⟨h, rfl⟩, h'⟩

end Check

namespace Func

open Check

variable {f : Func}

lemma checkPlaced_passes {b : BlockId} {i : Id} {last : Bool} :
    Passes (f.checkPlaced b i last) () ↔ ∃ s, f.at? i = some s ∧ s.dead = false ∧ s.block = b ∧
      (∀ v, s.payload ≠ .var v) ∧ s.payload.isTerminal = last := by
  unfold checkPlaced
  rw [passes_bind]
  refine exists_congr fun s => ?_
  rw [passes_lift, slot_eq_ok]
  refine and_congr_right fun _ => ?_
  simp only [passes_guard, ne_eq, Decidable.not_not, Bool.not_eq_true]
  refine and_congr_right fun _ => and_congr_right fun _ => ?_
  cases s.payload with
  | var v => simp
  | _ =>
    rw [passes_ite]
    simp

/-- Code that ends in its only terminal instruction. -/
def Closes (f : Func) : List Id → Prop
  | [] => False
  | [i] => ∃ x, f.live? i = some x ∧ x.isTerminal = true
  | i :: j :: rest => (∃ x, f.live? i = some x ∧ x.isTerminal = false) ∧ f.Closes (j :: rest)

lemma Sound.checkPlaced (hf : Sound f) {b : BlockId} {l : List Id} (hl : f.listing? b = some l)
    {i : Id} (hi : i ∈ l) {last : Bool} :
    Passes (f.checkPlaced b i last) () ↔ ∃ x, f.live? i = some x ∧ x.isTerminal = last := by
  rw [checkPlaced_passes]
  constructor
  · rintro ⟨s, hs, hd, -, -, ht⟩
    exact ⟨s.payload, live?_eq_some.mpr ⟨s, hs, hd, rfl⟩, ht⟩
  · rintro ⟨x, hx, ht⟩
    obtain ⟨s, hs, hd, rfl⟩ := live?_eq_some.mp hx
    obtain ⟨hb, -, hv⟩ := hf.block_of_mem hl hi hs
    exact ⟨s, hs, hd, hb, hv, ht⟩

lemma Sound.checkCode (hf : Sound f) {b : BlockId} {l : List Id} (hl : f.listing? b = some l)
    {code : List Id} (hsub : ∀ i ∈ code, i ∈ l) (hne : code ≠ []) :
    Passes (f.checkCode b code) () ↔ f.Closes code := by
  induction code with
  | nil => exact absurd rfl hne
  | cons i rest ih =>
    rw [Func.checkCode, passes_bind]
    simp only [hf.checkPlaced hl (hsub i (by simp))]
    cases rest with
    | nil => simp [Func.checkCode, Closes]
    | cons j rest =>
      rw [ih (fun k hk => hsub k (by simp [hk])) (by simp)]
      simp [Closes]

/-- Control may go from a block to another one. -/
def Leads (f : Func) (b c : BlockId) : Prop :=
  ∃ l t x, f.listing? b = some l ∧ l.getLast? = some t ∧ f.live? t = some x ∧ c ∈ x.targets

lemma Sound.successors (hf : Sound f) {b : BlockId} {l : List Id} (hl : f.listing? b = some l) :
    ∃ succs, f.successors b = .ok succs ∧ ∀ c, c ∈ succs ↔ f.Leads b c := by
  have hcode : f.code b = .ok l.toArray := code_eq_ok.mpr hl
  unfold Func.successors terminator?
  simp only [hcode, ok_bind, pure_eq_ok, List.back?_toArray]
  cases ht : l.getLast? with
  | none =>
    refine ⟨[], rfl, fun c => ⟨by simp, ?_⟩⟩
    rintro ⟨m, t, x, hm, hmt, -⟩
    obtain rfl : l = m := Option.some.inj (hl.symm.trans hm)
    simp [ht] at hmt
  | some t =>
    obtain ⟨x, hx, -⟩ := hf.live_of_mem hl (List.mem_of_getLast? ht)
    have hne : t ≠ noId := by
      obtain ⟨s, hs, -, -⟩ := live?_eq_some.mp hx
      have := nonneg_of_at? hs
      rintro rfl
      simp [noId] at this
    simp only [hne, if_false, payload_of_live hx, ok_bind]
    refine ⟨x.targets, rfl, fun c => ⟨fun hc => ⟨l, t, x, hl, ht, hx, hc⟩, ?_⟩⟩
    rintro ⟨m, t', x', hm, hmt, hx', hc⟩
    obtain rfl : l = m := Option.some.inj (hl.symm.trans hm)
    obtain rfl : t = t' := Option.some.inj (ht.symm.trans hmt)
    obtain rfl : x = x' := Option.some.inj (hx.symm.trans hx')
    exact hc

lemma Sound.checkBlock (hf : Sound f) {b : BlockId} :
    Passes (f.checkBlock b) () ↔ ∃ l, f.listing? b = some l ∧ f.Closes l ∧
      ∀ c, f.Leads b c → 0 ≤ c ∧ c < f.blocks.size := by
  unfold Func.checkBlock
  rw [passes_bind]
  constructor
  · rintro ⟨code, hcode, h⟩
    rw [passes_lift, code_eq_ok] at hcode
    obtain ⟨succs, hsuccs, hmem⟩ := hf.successors hcode
    simp only [passes_guard, passes_bind, passes_lift, hsuccs, Except.ok.injEq, passes_pure,
      and_true, exists_eq_left', passes_forIn] at h
    obtain ⟨hne, _, hcheck, hall⟩ := h
    refine ⟨code.toList, hcode, ?_, fun c hc => ?_⟩
    · exact (hf.checkCode hcode (fun _ h => h) (by simpa using hne)).mp hcheck
    · simpa [not_or] using hall c ((hmem c).mpr hc)
  · rintro ⟨l, hl, hcloses, hall⟩
    have hne : l ≠ [] := by
      rintro rfl
      exact hcloses
    obtain ⟨succs, hsuccs, hmem⟩ := hf.successors hl
    refine ⟨l.toArray, by rw [passes_lift, code_eq_ok, hl], ?_⟩
    simp only [passes_guard, passes_bind, passes_lift, hsuccs, Except.ok.injEq, passes_pure,
      and_true, exists_eq_left', passes_forIn]
    refine ⟨by simpa using hne, (), (hf.checkCode hl (fun _ h => h) hne).mpr hcloses, ?_⟩
    intro c hc
    simpa [not_or] using hall c ((hmem c).mp hc)

lemma find?_zipIdx_reverse {pre post : List Id} {i : Id} (hi : i ∉ post) :
    ((pre ++ i :: post).zipIdx.reverse.find? (·.1 == i)) = some (i, pre.length) := by
  rw [List.zipIdx_append, List.zipIdx_cons, List.reverse_append, List.reverse_cons, List.append_assoc,
    List.find?_append, List.find?_eq_none.mpr]
  · simp
  · intro p hp
    rw [List.mem_reverse] at hp
    have hmem := List.fst_mem_of_mem_zipIdx hp
    simp only [beq_iff_eq]
    rintro rfl
    exact hi hmem

lemma Sound.index?_eq (hf : Sound f) {blocks : List BlockId} {b : BlockId} {i : Id}
    {pre post : List Id} (hl : f.listing? b = some (pre ++ i :: post)) (hb : b ∈ blocks) :
    f.index? blocks i = some pre.length := by
  obtain ⟨s, hs, hblock, -⟩ := hf.code hl i (by simp)
  have hslot : f.slots[i.toNat]? = some s := by rw [← hs, at?_eq, if_pos (nonneg_of_at? hs)]
  obtain ⟨code, hcode, hlist⟩ : ∃ code, f.blocks[b.toNat]? = some code ∧
      code.toList = pre ++ i :: post := by
    have hnonneg := nonneg_of_listing? hl
    rw [listing?_eq, if_pos hnonneg] at hl
    simpa using hl
  unfold Func.index?
  simp [hslot, hblock, hb, hcode, hlist, find?_zipIdx_reverse (hf.not_mem_pre hl).2, guard]

lemma Sound.split_of_index? (hf : Sound f) {blocks : List BlockId} {i : Id} {n : Nat} {s : Slot}
    (hs : f.at? i = some s) (hb : noBlock ∉ blocks) (h : f.index? blocks i = some n) :
    s.block ∈ blocks ∧ ∃ pre post, f.listing? s.block = some (pre ++ i :: post) ∧ n = pre.length := by
  have hslot : f.slots[i.toNat]? = some s := by rw [← hs, at?_eq, if_pos (nonneg_of_at? hs)]
  have hmem : s.block ∈ blocks := by
    by_contra hnot
    simp [Func.index?, hslot, hnot, guard] at h
  refine ⟨hmem, ?_⟩
  obtain ⟨l, hl, hil⟩ := hf.placed hs fun hn => hb (hn ▸ hmem)
  obtain ⟨pre, post, rfl⟩ := List.append_of_mem hil
  refine ⟨pre, post, hl, ?_⟩
  rw [hf.index?_eq hl hmem] at h
  exact (Option.some.inj h).symm

/-- The blocks that control may come to. -/
def Reaches (f : Func) : BlockId → Prop := Relation.ReflTransGen f.Leads f.entry

/-- An instruction in the code of a block that control may come to. -/
def Runs (f : Func) (u : Id) : Prop := ∃ c l, f.Reaches c ∧ f.listing? c = some l ∧ u ∈ l

/-- A list of blocks that is closed under what follows them has all that control may come to. -/
lemma Reaches.mem {blocks : List BlockId} {b : BlockId} (hb : f.Reaches b)
    (hentry : f.entry ∈ blocks) (hclosed : ∀ b ∈ blocks, ∀ c, f.Leads b c → c ∈ blocks) :
    b ∈ blocks := by
  induction hb with
  | refl => exact hentry
  | tail _ hlead ih => exact hclosed _ ih _ hlead

/-- A walk that leaves the function as it is visits the blocks that can be reached one by one. -/
lemma walk_eq_ok {σ : Type} {visit : σ → BlockId → Except Fault σ} {s s' : σ}
    (h : f.walk (fun _ => f) visit s = .ok s') :
    ∃ blocks, f.reachable = .ok blocks ∧ blocks.Nodup ∧ blocks.foldlM visit s = .ok s' := by
  unfold walk at h
  cases hwalk : walkFrom f.blocks.size (fun _ b => f.successors b) visit [] s [f.entry] with
  | error e =>
    rw [hwalk] at h
    cases h
  | ok r =>
    rw [hwalk] at h
    obtain rfl : r.1 = s' := Except.ok.inj h
    obtain ⟨hreach, hnodup, new, hnew, hfold⟩ := walkFrom_foldlM hwalk List.nodup_nil
    rw [List.append_nil] at hnew
    refine ⟨new, ?_, by rwa [hnew, List.nodup_reverse] at hnodup, hfold⟩
    rw [reachable, hreach, hnew]
    exact congrArg Except.ok (List.reverse_reverse new)

lemma reachable_eq_cons {blocks : List BlockId} (h : f.reachable = .ok blocks) :
    ∃ rest, blocks = f.entry :: rest := by
  rw [reachable, bind_eq_ok] at h
  obtain ⟨r, hwalk, h⟩ := h
  obtain rfl : r.2.reverse = blocks := Except.ok.inj h
  cases hentry : f.entry with
  | negSucc k =>
    rw [hentry, walkFrom] at hwalk
    cases hwalk
  | ofNat k =>
    rw [hentry, walkFrom] at hwalk
    simp only [List.not_mem_nil, dite_false] at hwalk
    split at hwalk
    · split at hwalk
      · cases hwalk
      · obtain ⟨-, -, new, hnew, -⟩ := walkFrom_foldlM hwalk (List.nodup_singleton _)
        exact ⟨new, by rw [hnew]; simp⟩
    · cases hwalk

/-- What the checks of a function ask for. -/
structure WellFormed (f : Func) : Prop where
  closes : ∀ {b}, f.Reaches b → ∃ l, f.listing? b = some l ∧ f.Closes l
  operands : ∀ {u x}, f.live? u = some x → ∀ d ∈ x.operands, (f.live? d).isSome
  ordered : ∀ {b pre u post x}, f.Reaches b → f.listing? b = some (pre ++ u :: post) →
    f.live? u = some x → ∀ d ∈ x.operands, (f.varOf? d).isSome ∨ d ∈ pre

lemma checkOrder_passes {blocks : List BlockId} {i op : Id} {u d : Slot} :
    Passes (f.checkOrder blocks i op u d) () ↔ (∃ v, d.payload = .var v) ∨
      ∀ n, f.index? blocks i = some n →
        d.block = u.block ∧ (f.index? blocks op).getD 0 < n := by
  unfold checkOrder
  cases f.index? blocks i with
  | none => cases d.payload <;> simp
  | some n =>
    cases d.payload with
    | var v => simp
    | _ =>
      simp only [passes_ite]
      simp [not_or]

lemma checkOperand_passes {blocks : List BlockId} {i op : Id} {u : Slot} :
    Passes (f.checkOperand blocks i u op) () ↔ ∃ d, f.at? op = some d ∧ d.dead = false ∧
      d.refs.count i = u.payload.operands.count op ∧
      Passes (f.checkOrder blocks i op u d) () := by
  unfold checkOperand
  simp only [passes_guard, passes_bind, passes_lift, slot_eq_ok, ne_eq, Decidable.not_not,
    Bool.not_eq_true]
  constructor
  · rintro ⟨-, h⟩
    exact h
  · rintro ⟨d, hd, h⟩
    refine ⟨?_, d, hd, h⟩
    have := at?_isSome.mp (show (f.at? op).isSome by rw [hd]; rfl)
    rw [not_or, not_lt, not_le]
    exact this

lemma checkUser_passes {i user : Id} {s : Slot} :
    Passes (f.checkUser i s user) () ↔ ∃ x, f.live? user = some x ∧ i ∈ x.operands := by
  unfold checkUser
  simp only [passes_bind, passes_lift, slot_eq_ok, passes_ite, passes_pure, and_true, not_or,
    Bool.not_eq_true, Decidable.not_not, live?_eq_some]
  constructor
  · rintro ⟨u, hu, hd, hmem⟩
    exact ⟨_, ⟨u, hu, hd, rfl⟩, hmem⟩
  · rintro ⟨x, ⟨u, hu, hd, rfl⟩, hmem⟩
    exact ⟨u, hu, hd, hmem⟩

lemma mem_zipIdx_iff {s : Slot} {n : Nat} :
    (s, n) ∈ f.slots.toList.zipIdx ↔ f.at? (n : Int) = some s := by
  rw [List.mem_zipIdx_iff_getElem?, at?_eq]
  simp

lemma check_slots {blocks : List BlockId} :
    Passes (f.slots.toList.zipIdx.forM fun (s, i) => f.checkSlot blocks i s) () ↔
      ∀ i s, f.at? i = some s → Passes (f.checkSlot blocks i s) () := by
  rw [passes_forM]
  constructor
  · intro h i s hs
    have hi := Int.toNat_of_nonneg (nonneg_of_at? hs)
    have := h (s, i.toNat) (mem_zipIdx_iff.mpr (by rw [hi]; exact hs))
    simpa [hi] using this
  · rintro h ⟨s, n⟩ hmem
    exact h n s (mem_zipIdx_iff.mp hmem)

lemma checkSlot_dead {blocks : List BlockId} {i : Id} {s : Slot} (hd : s.dead = true) :
    Passes (f.checkSlot blocks i s) () ↔ s.refs = [] := by
  unfold checkSlot
  rw [if_pos hd, passes_ite]
  simp

lemma checkSlot_live {blocks : List BlockId} {i : Id} {s : Slot} (hd : s.dead = false) :
    Passes (f.checkSlot blocks i s) () ↔
      (∀ op ∈ s.payload.operands, Passes (f.checkOperand blocks i s op) ()) ∧
      ∀ user ∈ s.refs, Passes (f.checkUser i s user) () := by
  unfold checkSlot
  rw [if_neg (by simp [hd]), passes_seq, passes_forM, passes_forM]

lemma Sound.reaches_of_reachable (hf : Sound f) {blocks : List BlockId}
    (h : f.reachable = .ok blocks) {b : BlockId} (hb : f.Reaches b) : b ∈ blocks := by
  unfold reachable at h
  rw [bind_eq_ok] at h
  obtain ⟨v, hwalk, h⟩ := h
  obtain rfl : v.2.reverse = blocks := Except.ok.inj h
  obtain ⟨-, hentry, hclosed⟩ := walkFrom_closed hwalk
  rw [List.mem_reverse]
  induction hb with
  | refl => exact hentry _ (by simp)
  | @tail b c _ hlead ih =>
    obtain ⟨succs, hsuccs, hall⟩ := (hclosed b ih).resolve_left (by simp)
    obtain ⟨l, t, x, hl, -⟩ := id hlead
    obtain ⟨succs', hsuccs', hmem⟩ := hf.successors hl
    obtain rfl : succs = succs' := Except.ok.inj (hsuccs.symm.trans hsuccs')
    exact hall c ((hmem c).mpr hlead)

lemma bounds_of_listing? {b : BlockId} {l : List Id} (h : f.listing? b = some l) :
    0 ≤ b ∧ b < f.blocks.size := by
  rw [listing?_eq] at h
  split at h
  · rename_i hnonneg
    obtain ⟨code, hcode, -⟩ := Option.map_eq_some_iff.mp h
    exact ⟨hnonneg, (Int.toNat_lt hnonneg).mp (Array.getElem?_eq_some_iff.mp hcode).1⟩
  · simp at h

lemma WellFormed.reachable_ok (hf : Sound f) (hw : WellFormed f) :
    ∃ blocks, f.reachable = .ok blocks ∧ ∀ b, b ∈ blocks ↔ f.Reaches b := by
  have hvalid : ∀ b, f.Reaches b → 0 ≤ b ∧ b < f.blocks.size := by
    intro b hb
    obtain ⟨l, hl, -⟩ := hw.closes hb
    exact bounds_of_listing? hl
  obtain ⟨s, visited, hwalk, -, -, hentry, hclosed⟩ :=
    walkFrom_ok (fun (_ : Unit) b => f.successors b) (fun _ _ => .ok ())
      (E := f.Leads) (P := f.Reaches) (I := fun _ _ => True) hvalid
      (fun b c hb hbc => Relation.ReflTransGen.tail hb hbc)
      (fun _ _ b hb _ _ => by
        obtain ⟨l, hl, -⟩ := hw.closes hb
        obtain ⟨succs, hsuccs, hmem⟩ := hf.successors hl
        exact ⟨(), succs, rfl, trivial, hsuccs, hmem⟩)
      [] () [f.entry] trivial (by
        simp only [List.mem_singleton, forall_eq]
        exact Relation.ReflTransGen.refl) (by simp)
  refine ⟨visited.reverse, ?_, fun b => ?_⟩
  · unfold reachable
    rw [hwalk]
    rfl
  · rw [List.mem_reverse]
    exact ⟨fun hb => (hclosed b hb).1,
      fun hb => hb.mem (hentry _ (by simp)) fun c hc => (hclosed c hc).2⟩

/-- In a function that passes the checks of its slots operands were not erased, and come before
their users. -/
lemma Sound.operands_of_checks (hf : Sound f) {blocks : List BlockId}
    (h : ∀ i s, f.at? i = some s → Passes (f.checkSlot blocks i s) ()) {u : Id} {x : Payload}
    (hx : f.live? u = some x) {d : Id} (hd : d ∈ x.operands) :
    (f.live? d).isSome ∧ ∀ {b pre post}, b ∈ blocks → f.listing? b = some (pre ++ u :: post) →
      (f.varOf? d).isSome ∨ d ∈ pre := by
  obtain ⟨s, hs, hdead, rfl⟩ := live?_eq_some.mp hx
  obtain ⟨t, ht, htd, -, horder⟩ :=
    checkOperand_passes.mp (((checkSlot_live hdead).mp (h u s hs)).1 d hd)
  refine ⟨by simp [live?_of_at? ht, htd], fun {b pre post} hb hl => ?_⟩
  rcases checkOrder_passes.mp horder with ⟨v, hv⟩ | hlt
  · left
    rw [varOf?_eq, ht]
    simp [hv, Payload.asVar]
  · right
    obtain ⟨hblock, hindex⟩ := hlt _ (hf.index?_eq hl hb)
    have hub : s.block = b := (hf.block_of_mem hl (by simp) hs).1
    rw [hub] at hblock
    obtain ⟨l, hl', hmem⟩ := hf.placed ht (by rw [hblock]; exact ne_noBlock_of_listing? hl)
    obtain ⟨pre', post', rfl⟩ := List.append_of_mem hmem
    rw [hblock] at hl'
    rw [hf.index?_eq hl' hb, Option.getD_some] at hindex
    -- The two ways of splitting the same code put `d` in front of `u`.
    have heq : pre' ++ d :: post' = pre ++ u :: post := Option.some.inj (hl'.symm.trans hl)
    have hget : (pre ++ u :: post)[pre'.length]? = some d := by simp [← heq]
    rw [List.getElem?_append_left hindex] at hget
    exact List.mem_of_getElem? hget

/-- A sound function passes the checks exactly if it is well formed. -/
theorem Sound.verify_iff (hf : Sound f) : f.verify = .ok (.ok ()) ↔ WellFormed f := by
  change Passes f.check () ↔ _
  unfold check
  rw [passes_guard, passes_bind]
  constructor
  · rintro ⟨-, blocks, hblocks, h⟩
    rw [passes_lift] at hblocks
    rw [passes_seq, passes_forM] at h
    obtain ⟨hcheck, hslots⟩ := h
    have hslots := check_slots.mp hslots
    refine ⟨?_, ?_, ?_⟩
    · intro b hb
      obtain ⟨l, hl, hcloses, -⟩ := hf.checkBlock.mp (hcheck b (hf.reaches_of_reachable hblocks hb))
      exact ⟨l, hl, hcloses⟩
    · intro u x hx d hd
      exact (hf.operands_of_checks hslots hx hd).1
    · intro b pre u post x hb hl hx d hd
      exact (hf.operands_of_checks hslots hx hd).2 (hf.reaches_of_reachable hblocks hb) hl
  · intro hw
    obtain ⟨blocks, hblocks, hmem⟩ := hw.reachable_ok hf
    have hno : noBlock ∉ blocks := by
      intro h
      obtain ⟨l, hl, -⟩ := hw.closes ((hmem _).mp h)
      exact ne_noBlock_of_listing? hl rfl
    refine ⟨fun h => hno (h ▸ (hmem _).mpr Relation.ReflTransGen.refl), blocks, ?_, ?_⟩
    · rw [passes_lift, hblocks]
    rw [passes_seq, passes_forM]
    refine ⟨fun b hb => ?_, check_slots.mpr fun i s hs => ?_⟩
    · have hb := (hmem b).mp hb
      obtain ⟨l, hl, hcloses⟩ := hw.closes hb
      refine hf.checkBlock.mpr ⟨l, hl, hcloses, fun c hc => ?_⟩
      obtain ⟨m, hm, -⟩ := hw.closes (Relation.ReflTransGen.tail hb hc)
      exact bounds_of_listing? hm
    · cases hdead : s.dead with
      | true =>
        rw [checkSlot_dead hdead]
        refine hf.refs_eq_nil hs fun u x hu hi => ?_
        have := hw.operands hu i hi
        simp [live?_of_at? hs, hdead] at this
      | false =>
        rw [checkSlot_live hdead]
        have hx : f.live? i = some s.payload := live?_eq_some.mpr ⟨s, hs, hdead, rfl⟩
        refine ⟨fun op hop => ?_, fun user huser => ?_⟩
        · obtain ⟨y, hy⟩ := Option.isSome_iff_exists.mp (hw.operands hx op hop)
          obtain ⟨d, hd, hdd, rfl⟩ := live?_eq_some.mp hy
          refine checkOperand_passes.mpr ⟨d, hd, hdd, ?_, checkOrder_passes.mpr ?_⟩
          · rw [hf.refs hd, uses_of_live hx]
          · by_cases hv : ∃ v, d.payload = .var v
            · exact Or.inl hv
            · refine Or.inr fun n hn => ?_
              obtain ⟨hb, pre, post, hl, rfl⟩ := hf.split_of_index? hs hno hn
              have hpre : op ∈ pre := by
                refine (hw.ordered ((hmem _).mp hb) hl hx op hop).resolve_left fun h => hv ?_
                rw [varOf?_of_live hy] at h
                obtain ⟨v, hv⟩ := Option.isSome_iff_exists.mp h
                cases hp : d.payload <;> simp_all [Payload.asVar]
              obtain ⟨l₁, l₂, rfl⟩ := List.append_of_mem hpre
              rw [List.append_assoc, List.cons_append] at hl
              refine ⟨(hf.block_of_mem hl (by simp) hd).1, ?_⟩
              rw [hf.index?_eq hl hb]
              simp
        · exact checkUser_passes.mpr ((hf.mem_refs_iff hs).mp huser)

variable {f' : Func} {b : BlockId} {σ : Id → Id}

lemma closes_append {l m : List Id} (hm : m ≠ []) :
    f.Closes (l ++ m) ↔
      (∀ i ∈ l, ∃ x, f.live? i = some x ∧ x.isTerminal = false) ∧ f.Closes m := by
  induction l with
  | nil => simp
  | cons i l ih =>
    obtain ⟨j, r, hr⟩ := List.exists_cons_of_ne_nil (List.append_ne_nil_of_right_ne_nil l hm)
    rw [List.cons_append, hr, Closes, ← hr, ih, List.forall_mem_cons, and_assoc]

lemma Closes.mem_getLast {l : List Id} (h : f.Closes l) :
    ∃ t x, l.getLast? = some t ∧ f.live? t = some x ∧ x.isTerminal = true := by
  induction l with
  | nil => exact h.elim
  | cons i l ih =>
    cases l with
    | nil =>
      obtain ⟨x, hx, ht⟩ := h
      exact ⟨i, x, rfl, hx, ht⟩
    | cons j l =>
      obtain ⟨t, x, hl, hx⟩ := ih h.2
      exact ⟨t, x, by simpa using hl, hx⟩

lemma Closes.congr {l : List Id} (h : f.Closes l)
    (hl : ∀ i ∈ l, ∀ x, f.live? i = some x → ∃ y, f'.live? i = some y ∧
      y.isTerminal = x.isTerminal) : f'.Closes l := by
  induction l with
  | nil => exact h.elim
  | cons i l ih =>
    cases l with
    | nil =>
      obtain ⟨x, hx, ht⟩ := h
      obtain ⟨y, hy, hxy⟩ := hl i (by simp) x hx
      exact ⟨y, hy, hxy.trans ht⟩
    | cons j l =>
      obtain ⟨⟨x, hx, ht⟩, h⟩ := h
      obtain ⟨y, hy, hxy⟩ := hl i (by simp) x hx
      exact ⟨⟨y, hy, hxy.trans ht⟩, ih h fun k hk => hl k (by simp [hk])⟩

lemma Closes.listing_eq {b : BlockId} {l : List Id} {i : Id} {x : Payload}
    (hcloses : ∀ {l}, f.listing? b = some l → f.Closes l)
    (hl : ∃ rest, f.listing? b = some (l ++ [i] ++ rest)) (hx : f.live? i = some x)
    (hterm : x.isTerminal = true) : f.listing? b = some (l ++ [i]) := by
  obtain ⟨rest, hl⟩ := hl
  by_cases hrest : rest = []
  · rwa [hrest, List.append_nil] at hl
  · obtain ⟨y, hy, hplain⟩ := ((closes_append hrest).mp (hcloses hl)).1 i (by simp)
    obtain rfl : x = y := Option.some.inj (hx.symm.trans hy)
    rw [hterm] at hplain
    cases hplain

lemma Closes.getLast_eq {l : List Id} (h : f.Closes l) {i : Id} (hi : i ∈ l) {x : Payload}
    (hx : f.live? i = some x) (ht : x.isTerminal = true) : l.getLast? = some i := by
  obtain ⟨A, B, rfl⟩ := List.append_of_mem hi
  cases B with
  | nil => simp
  | cons j B =>
    have hsplit : A ++ i :: j :: B = (A ++ [i]) ++ j :: B := by simp
    rw [hsplit, closes_append (by simp)] at h
    obtain ⟨y, hy, hyt⟩ := h.1 i (by simp)
    obtain rfl : x = y := Option.some.inj (hx.symm.trans hy)
    simp [ht] at hyt

lemma WellFormed.reaches_target (hw : WellFormed f) (hr : f.Reaches b) {l : List Id}
    (hl : f.listing? b = some l) {i : Id} (hi : i ∈ l) {x : Payload} (hx : f.live? i = some x)
    {c : BlockId} (hc : c ∈ x.targets) : f.Reaches c := by
  have hterm : x.isTerminal = true := by
    cases x <;> simp [Payload.targets] at hc <;> rfl
  obtain ⟨m, hm, hcl⟩ := hw.closes hr
  obtain rfl : l = m := Option.some.inj (hl.symm.trans hm)
  exact Relation.ReflTransGen.tail hr ⟨l, i, x, hl, hcl.getLast_eq hi hx hterm, hx, hc⟩

lemma isTerminal_rename (x : Payload) : (x.rename σ).isTerminal = x.isTerminal := by
  cases x <;> rfl

lemma targets_rename (x : Payload) : (x.rename σ).targets = x.targets := by
  cases x <;> rfl

lemma size_eq (f : Func) :
    f.size = ∑ c ∈ Finset.range f.blocks.size, ((f.listing? (c : Int)).getD []).length := by
  have hlist : ∀ c : Nat, ((f.listing? (c : Int)).getD []).length = (f.blocks[c]?.getD #[]).size := by
    intro c
    rw [listing?_eq]
    cases h : f.blocks[c]? <;> simp [h]
  have hsum : f.size = (f.blocks.toList.map Array.size).sum := by
    rw [size, ← Array.foldl_toList, List.sum_eq_foldl, List.foldl_map]
  simp only [hlist, hsum]
  rw [Finset.sum_range, ← List.sum_ofFn]
  congr 1
  apply List.ext_getElem <;> simp

lemma size_congr (hb : f'.blocks.size = f.blocks.size) (h : ∀ c, f'.listing? c = f.listing? c) :
    f'.size = f.size := by
  simp only [size_eq, hb, h]

lemma size_update {l m : List Id} (hb : f'.blocks.size = f.blocks.size) (hl : f.listing? b = some l)
    (h : ∀ c, f'.listing? c = Function.update f.listing? b (some m) c) :
    f'.size + l.length = f.size + m.length := by
  obtain ⟨hnn, hlt⟩ := bounds_of_listing? hl
  obtain ⟨k, rfl⟩ := Int.eq_ofNat_of_zero_le hnn
  have hk : k ∈ Finset.range f.blocks.size := by simpa using hlt
  rw [size_eq, size_eq, hb, ← Finset.add_sum_erase _ _ hk, ← Finset.add_sum_erase _ _ hk]
  have hrest : ∑ c ∈ (Finset.range f.blocks.size).erase k, ((f'.listing? (c : Int)).getD []).length =
      ∑ c ∈ (Finset.range f.blocks.size).erase k, ((f.listing? (c : Int)).getD []).length := by
    refine Finset.sum_congr rfl fun c hc => ?_
    have : (c : Int) ≠ k := by simpa using (Finset.mem_erase.mp hc).1
    rw [h, Function.update_of_ne this]
  have hhere : f'.listing? ((k : Nat) : Int) = some m := by
    rw [h]
    simp
  have hold : f.listing? ((k : Nat) : Int) = some l := hl
  rw [hrest, hhere, hold]
  simp only [Option.getD_some]
  omega

end Func

end Accumulator.Flow
