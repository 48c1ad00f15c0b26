import Mathlib
import Accumulator.Proofs.ComplementMeaning

/-!
# The order of a walk

A walk visits every block that can be reached from the entry once and no other, the entry first and every
other block behind one that it follows. A visit may exchange the targets of branches: the walk then takes
another way through the same blocks.
-/

namespace Accumulator.Flow

section Calls

variable {σ : Type} {n : Nat} {next : σ → BlockId → Except Fault (List BlockId)}
  {visit : σ → BlockId → Except Fault σ} {visited pending : List BlockId} {s : σ}

lemma walkFrom_nil : walkFrom n next visit visited s [] = .ok (s, visited) := by
  rw [walkFrom]

lemma walkFrom_skip {b : BlockId} (hb : 0 ≤ b) (hv : b ∈ visited) :
    walkFrom n next visit visited s (b :: pending) = walkFrom n next visit visited s pending := by
  obtain ⟨k, rfl⟩ := Int.eq_ofNat_of_zero_le hb
  change walkFrom n next visit visited s (Int.ofNat k :: pending) = _
  rw [walkFrom]
  simp only [Int.ofNat_eq_natCast, hv, dite_true]

/-- A visit that also keeps the list of its calls. -/
def logged (visit : σ → BlockId → Except Fault σ) (st : σ × List BlockId) (b : BlockId) :
    Except Fault (σ × List BlockId) :=
  (fun s => (s, st.2 ++ [b])) <$> visit st.1 b

/-- The calls of a walk that comes to its end. `P` holds of the blocks that are pending, `I` is what visits
of such blocks keep, and `E` has the steps from a block to its successors behind its visit. Each call is for
a block that was pending or that a block called for before leads to. -/
lemma walkFrom_calls {E : BlockId → BlockId → Prop} {P : BlockId → Prop} {I : σ → Prop}
    (hstep : ∀ s s' b succs, P b → I s → visit s b = .ok s' → next s' b = .ok succs →
      I s' ∧ ∀ c ∈ succs, P c ∧ E b c)
    (hpending : ∀ b ∈ pending, P b) (hs : I s) {r : σ × List BlockId}
    (h : walkFrom n next visit visited s pending = .ok r) :
    ∃ calls, r.2 = calls.reverse ++ visited ∧ (∀ b ∈ calls, b ∉ visited) ∧ calls.Nodup ∧
      (∀ before, walkFrom n (fun st => next st.1) (logged visit) visited (s, before) pending =
        .ok ((r.1, before ++ calls), r.2)) ∧
      ∀ pre c post, calls = pre ++ c :: post → c ∈ pending ∨ ∃ b ∈ pre, E b c := by
  induction visited, s, pending using walkFrom.induct n next visit with
  | case1 visited s =>
    rw [walkFrom] at h
    obtain rfl := Except.ok.inj h
    refine ⟨[], rfl, by simp, List.nodup_nil, fun before => ?_, by simp⟩
    rw [walkFrom, List.append_nil]
  | case2 visited s pending k =>
    rw [walkFrom] at h
    cases h
  | case3 visited s pending k hv ih =>
    rw [walkFrom] at h
    simp only [hv, dite_true] at h
    obtain ⟨calls, hr, hnew, hnodup, hlog, horder⟩ := ih (fun b hb => hpending b (by simp [hb])) hs h
    refine ⟨calls, hr, hnew, hnodup, fun before => ?_, fun pre c post hsplit => ?_⟩
    · rw [walkFrom]
      simp only [hv, dite_true]
      exact hlog before
    · exact (horder pre c post hsplit).imp_left (List.mem_cons_of_mem _)
  | case4 visited s pending k hv hk e he =>
    rw [walkFrom] at h
    simp only [hv, hk, dite_true, dite_false, he, reduceCtorEq] at h
  | case5 visited s pending k hv hk s' e hvisit he =>
    rw [walkFrom] at h
    simp only [hv, hk, dite_true, dite_false, hvisit, he, reduceCtorEq] at h
  | case6 visited s pending k hv hk s' succs hvisit hnext ih =>
    rw [walkFrom] at h
    simp only [hv, hk, dite_true, dite_false, hvisit, hnext] at h
    obtain ⟨hs', hsuccs⟩ := hstep s s' _ succs (hpending _ List.mem_cons_self) hs hvisit hnext
    obtain ⟨calls, hr, hnew, hnodup, hlog, horder⟩ := ih (fun b hb => by
      rcases List.mem_append.mp hb with hb | hb
      · exact (hsuccs b hb).1
      · exact hpending b (by simp [hb])) hs' h
    refine ⟨(k : Int) :: calls, by simp [hr], ?_, ?_, fun before => ?_, fun pre c post hsplit => ?_⟩
    · rw [List.forall_mem_cons]
      exact ⟨hv, fun b hb hmem => hnew b hb (List.mem_cons_of_mem _ hmem)⟩
    · rw [List.nodup_cons]
      exact ⟨fun hmem => hnew _ hmem List.mem_cons_self, hnodup⟩
    · have hcall : logged visit (s, before) (Int.ofNat k) = .ok (s', before ++ [Int.ofNat k]) := by
        rw [logged, hvisit]
        rfl
      rw [walkFrom]
      simp only [hv, hk, dite_true, dite_false, hcall, hnext]
      rw [hlog, List.append_assoc]
      rfl
    · cases pre with
      | nil =>
        obtain ⟨rfl, -⟩ := List.cons.inj hsplit
        exact Or.inl List.mem_cons_self
      | cons b pre =>
        obtain ⟨rfl, hrest⟩ := List.cons.inj hsplit
        rcases horder pre c post hrest with hmem | ⟨b, hb, hbc⟩
        · rcases List.mem_append.mp hmem with hmem | hmem
          · exact Or.inr ⟨_, List.mem_cons_self, (hsuccs c hmem).2⟩
          · exact Or.inl (List.mem_cons_of_mem _ hmem)
        · exact Or.inr ⟨b, List.mem_cons_of_mem _ hb, hbc⟩
  | case7 visited s pending k hv hk =>
    rw [walkFrom] at h
    simp [hv, hk] at h

end Calls

namespace Func

variable {σ : Type} {f g : Func} {b c : BlockId}

/-- An order of visits: each block that can be reached from the entry is visited once and no other, the
entry first and every other block behind one that it follows. -/
structure VisitOrder (f : Func) (calls : List BlockId) : Prop where
  nodup : calls.Nodup
  mem_iff : ∀ b, b ∈ calls ↔ Relation.ReflTransGen f.Successor f.entry b
  head : calls.head? = some f.entry
  behind : ∀ pre c post, calls = pre ++ c :: post → c ≠ f.entry → ∃ b ∈ pre, f.Successor b c

/-- The entry of a function is a block, the code of its blocks names slots, and their targets are blocks. -/
structure Closed (f : Func) : Prop where
  entry : (f.listing? f.entry).isSome
  code : ∀ {b l}, f.listing? b = some l → ∀ i ∈ l, ∃ s, f.at? i = some s ∧
    ∀ c ∈ s.payload.targets, (f.listing? c).isSome

lemma Closed.successors (hf : f.Closed) (hb : (f.listing? b).isSome) :
    ∃ succs, f.successors b = .ok succs ∧ ∀ c ∈ succs, (f.listing? c).isSome := by
  obtain ⟨l, hl⟩ := Option.isSome_iff_exists.mp hb
  have hcode : f.code b = .ok l.toArray := code_eq_ok.mpr hl
  unfold Func.successors terminator?
  rw [hcode, ok_bind]
  cases hlast : l.toArray.back? with
  | none => exact ⟨[], rfl, by simp⟩
  | some t =>
    rw [List.back?_toArray] at hlast
    obtain ⟨s, hs, htargets⟩ := hf.code hl t (List.mem_of_getLast? hlast)
    have hnoId : t ≠ noId := fun h => absurd (nonneg_of_at? hs) (by rw [h]; decide)
    refine ⟨s.payload.targets, ?_, htargets⟩
    rw [pure_eq_ok, ok_bind]
    dsimp only
    rw [if_neg hnoId, payload_eq_ok.mpr ⟨s, hs, rfl⟩]
    rfl

lemma Closed.exists_of_successor (hf : f.Closed) (hb : Relation.ReflTransGen f.Successor f.entry b) :
    (f.listing? b).isSome := by
  induction hb with
  | refl => exact hf.entry
  | tail _ hstep ih =>
    obtain ⟨succs, hsuccs, hc⟩ := hstep
    obtain ⟨succs', hsuccs', hall⟩ := hf.successors ih
    obtain rfl : succs = succs' := Except.ok.inj (hsuccs.symm.trans hsuccs')
    exact hall _ hc

/-- A function that was made by edits is closed if its entry and the targets of its branches exist. -/
lemma Made.closed (h : Made f) (hentry : (f.listing? f.entry).isSome)
    (htargets : ∀ i x, f.live? i = some x → ∀ c ∈ x.targets, (f.listing? c).isSome) : f.Closed := by
  refine ⟨hentry, fun hl i hi => ?_⟩
  obtain ⟨x, hx, -⟩ := h.sound.1.live_of_mem hl hi
  obtain ⟨s, hs, -, rfl⟩ := live?_eq_some.mp hx
  exact ⟨s, hs, htargets i _ hx⟩

/-- The same entry and blocks, and slots whose targets are the same up to their order. -/
structure Retargeted (f g : Func) : Prop where
  entry : g.entry = f.entry
  blocks : g.blocks = f.blocks
  slots : ∀ {i s}, f.at? i = some s → ∃ s', g.at? i = some s' ∧ s'.payload.targets.Perm s.payload.targets

lemma Retargeted.refl (f : Func) : f.Retargeted f :=
  ⟨rfl, rfl, fun hs => ⟨_, hs, List.Perm.refl _⟩⟩

lemma Retargeted.trans {f g h : Func} (hfg : f.Retargeted g) (hgh : g.Retargeted h) : f.Retargeted h := by
  refine ⟨hgh.entry.trans hfg.entry, hgh.blocks.trans hfg.blocks, fun hs => ?_⟩
  obtain ⟨s', hs', hperm⟩ := hfg.slots hs
  obtain ⟨s'', hs'', hperm'⟩ := hgh.slots hs'
  exact ⟨s'', hs'', hperm'.trans hperm⟩

lemma Retargeted.code_eq (h : f.Retargeted g) (b : BlockId) : g.code b = f.code b := by
  rw [code, code, h.blocks]

lemma Retargeted.listing?_eq (h : f.Retargeted g) (b : BlockId) : g.listing? b = f.listing? b := by
  rw [listing?, listing?, h.code_eq]

lemma Retargeted.closed (h : f.Retargeted g) (hf : f.Closed) : g.Closed := by
  refine ⟨?_, fun {b l} hl i hi => ?_⟩
  · rw [h.entry, h.listing?_eq]
    exact hf.entry
  · rw [h.listing?_eq] at hl
    obtain ⟨s, hs, htargets⟩ := hf.code hl i hi
    obtain ⟨s', hs', hperm⟩ := h.slots hs
    refine ⟨s', hs', fun c hc => ?_⟩
    rw [h.listing?_eq]
    exact htargets c (hperm.mem_iff.mp hc)

lemma Retargeted.successors {succs : List BlockId} (h : f.Retargeted g) (hsuccs : f.successors b = .ok succs) :
    ∃ succs', g.successors b = .ok succs' ∧ succs'.Perm succs := by
  have hterm : g.terminator? b = f.terminator? b := by
    rw [terminator?, terminator?, h.code_eq]
  unfold Func.successors at hsuccs ⊢
  rw [hterm]
  rw [bind_eq_ok] at hsuccs
  obtain ⟨t, ht, hsuccs⟩ := hsuccs
  rw [ht, ok_bind]
  cases t with
  | none => exact ⟨succs, hsuccs, List.Perm.refl _⟩
  | some t =>
    dsimp only at hsuccs ⊢
    split at hsuccs
    · next hnone => exact ⟨succs, by rw [if_pos hnone, hsuccs], List.Perm.refl _⟩
    · next hsome =>
      rw [bind_eq_ok] at hsuccs
      obtain ⟨x, hx, hsuccs⟩ := hsuccs
      obtain rfl := Except.ok.inj hsuccs
      obtain ⟨s, hs, rfl⟩ := payload_eq_ok.mp hx
      obtain ⟨s', hs', hperm⟩ := h.slots hs
      refine ⟨s'.payload.targets, ?_, hperm⟩
      rw [if_neg hsome, payload_eq_ok.mpr ⟨s', hs', rfl⟩]
      rfl

lemma targets_swapped (x : Payload) : (swapped x).targets.Perm x.targets := by
  cases x with
  | branchIf t c p q => exact List.Perm.swap p q []
  | _ => exact List.Perm.refl _

lemma retargeted_of_swapTargets {i : Id} (h : f.swapTargets i = .ok g) : f.Retargeted g := by
  have hi : (f.at? i).isSome := (updateSlot_eq_ok.mp h).1
  obtain ⟨t, ht⟩ := Option.isSome_iff_exists.mp hi
  obtain rfl := Except.ok.inj ((swapTargets_eq hi).symm.trans h)
  refine ⟨rfl, rfl, fun {j s} hs => ?_⟩
  rw [at?_amend (nonneg_of_at? ht)]
  split
  · exact ⟨_, by rw [hs]; rfl, targets_swapped _⟩
  · exact ⟨s, hs, List.Perm.refl _⟩

/-- In `g` the targets of some branches of `f` are exchanged. -/
def Exchanged : Func → Func → Prop := Relation.ReflTransGen fun f g => ∃ i, f.swapTargets i = .ok g

lemma Exchanged.retargeted (h : Exchanged f g) : f.Retargeted g := by
  induction h with
  | refl => exact Retargeted.refl f
  | tail _ hstep ih =>
    obtain ⟨i, hi⟩ := hstep
    exact ih.trans (retargeted_of_swapTargets hi)

lemma Closed.successor_of_successors (hf : f.Closed) (hg : f.Retargeted g)
    (hb : Relation.ReflTransGen f.Successor f.entry b) :
    ∃ succs, g.successors b = .ok succs ∧ ∀ c, c ∈ succs ↔ f.Successor b c := by
  obtain ⟨succs, hsuccs, -⟩ := hf.successors (hf.exists_of_successor hb)
  obtain ⟨succs', hsuccs', hperm⟩ := hg.successors hsuccs
  refine ⟨succs', hsuccs', fun c => ?_⟩
  rw [hperm.mem_iff]
  constructor
  · exact fun hc => ⟨succs, hsuccs, hc⟩
  · rintro ⟨succs'', hsuccs'', hc⟩
    obtain rfl : succs = succs'' := Except.ok.inj (hsuccs.symm.trans hsuccs'')
    exact hc

/-- Visits that come to their end and keep the targets up to their order: the walk comes to its end, and its
calls are in order. -/
lemma Closed.walkFrom_order {func : σ → Func} {visit : σ → BlockId → Except Fault σ} {s : σ}
    (hf : f.Closed) (hs : f.Retargeted (func s))
    (hvisit : ∀ t b, f.Retargeted (func t) → Relation.ReflTransGen f.Successor f.entry b →
      ∃ t', visit t b = .ok t' ∧ f.Retargeted (func t')) :
    ∃ s' calls, walkFrom f.blocks.size (fun s b => (func s).successors b) visit [] s [f.entry] =
        .ok (s', calls.reverse) ∧
      walkFrom f.blocks.size (fun st b => (func st.1).successors b) (logged visit) [] (s, []) [f.entry] =
        .ok ((s', calls), calls.reverse) ∧ f.VisitOrder calls := by
  obtain ⟨s', visited, hwalk, -, -, hentry, hall⟩ :=
    walkFrom_ok (n := f.blocks.size) (fun s b => (func s).successors b) visit
      (E := f.Successor) (P := Relation.ReflTransGen f.Successor f.entry) (I := fun _ t => f.Retargeted (func t))
      (fun b hb => listing?_isSome.mp (hf.exists_of_successor hb))
      (fun b c hb hc => hb.tail hc)
      (fun _ t b hb _ ht => by
        obtain ⟨t', ht', hI⟩ := hvisit t b ht hb
        obtain ⟨succs, hsuccs, hmem⟩ := hf.successor_of_successors hI hb
        exact ⟨t', succs, ht', hI, hsuccs, hmem⟩)
      [] s [f.entry] hs (by simp [Relation.ReflTransGen.refl]) (by simp)
  obtain ⟨calls, hvisited, -, hnodup, hlog, horder⟩ :=
    walkFrom_calls (E := f.Successor) (P := Relation.ReflTransGen f.Successor f.entry)
      (I := fun t => f.Retargeted (func t))
      (fun t t' b succs hb ht ht' hsuccs => by
        obtain ⟨t'', ht'', hI⟩ := hvisit t b ht hb
        obtain rfl : t'' = t' := Except.ok.inj (ht''.symm.trans ht')
        obtain ⟨succs', hsuccs', hmem⟩ := hf.successor_of_successors hI hb
        obtain rfl : succs' = succs := Except.ok.inj (hsuccs'.symm.trans hsuccs)
        exact ⟨hI, fun c hc => ⟨hb.tail ((hmem c).mp hc), (hmem c).mp hc⟩⟩)
      (by simp [Relation.ReflTransGen.refl]) hs hwalk
  obtain rfl : visited = calls.reverse := by simpa using hvisited
  refine ⟨s', calls, hwalk, hlog [], hnodup, fun b => ⟨fun hb => ?_, fun hb => ?_⟩, ?_, ?_⟩
  · exact (hall b (List.mem_reverse.mpr hb)).1
  · rw [← List.mem_reverse]
    induction hb with
    | refl => exact hentry _ (by simp)
    | tail _ hstep ih => exact (hall _ ih).2 _ hstep
  · cases calls with
    | nil => exact absurd (hentry f.entry (by simp)) (by simp)
    | cons c calls =>
      obtain hmem | ⟨b, hb, -⟩ := horder [] c calls rfl
      · rw [List.mem_singleton.mp hmem]
        rfl
      · cases hb
  · intro pre c post hsplit hne
    exact (horder pre c post hsplit).resolve_left fun hmem => hne (List.mem_singleton.mp hmem)

lemma Closed.reachable_order (hf : f.Closed) : ∃ blocks, f.reachable = .ok blocks ∧ f.VisitOrder blocks := by
  obtain ⟨⟨⟩, blocks, hblocks, -, horder⟩ :=
    @Closed.walkFrom_order Unit f (fun _ => f) (fun _ _ => .ok ()) () hf (Retargeted.refl f)
      (fun _ _ _ _ => ⟨(), rfl, Retargeted.refl f⟩)
  refine ⟨blocks, ?_, horder⟩
  rw [reachable, hblocks, ok_bind]
  exact congrArg Except.ok (List.reverse_reverse blocks)

/-- A walk comes to its end, with one call of the visit for each block that can be reached from the entry,
in an order in which every block but the entry is behind one that it follows. This is so too if visits
exchange the targets of branches: the blocks are those that can be reached in the function as it was. -/
theorem walk_visits_reachable {func : σ → Func} {visit : σ → BlockId → Except Fault σ} {s : σ}
    (hf : (func s).Closed)
    (hvisit : ∀ t b, (func t).Closed → ((func t).listing? b).isSome →
      ∃ t', visit t b = .ok t' ∧ Exchanged (func t) (func t')) :
    (∃ s' calls, (func s).walk func visit s = .ok s' ∧
      (func s).walk (fun st => func st.1) (logged visit) (s, []) = .ok (s', calls) ∧
      (func s).VisitOrder calls) ∧
    ∃ blocks, (func s).reachable = .ok blocks ∧ (func s).VisitOrder blocks := by
  obtain ⟨s', calls, hwalk, hlog, horder⟩ := hf.walkFrom_order (Retargeted.refl _) fun t b ht hb => by
    obtain ⟨t', ht', hswap⟩ := hvisit t b (ht.closed hf) (by
      rw [ht.listing?_eq]
      exact hf.exists_of_successor hb)
    exact ⟨t', ht', ht.trans hswap.retargeted⟩
  refine ⟨⟨s', calls, ?_, ?_, horder⟩, hf.reachable_order⟩
  · rw [walk, hwalk]
    rfl
  · rw [walk, hlog]
    rfl

/-- Exchange the targets of all branches of a block. -/
def swapBlock (f : Func) (b : BlockId) : Except Fault Func := do
  (← f.code b).toList.foldlM swapTargets f

lemma Closed.swapBlock (hf : f.Closed) (hb : (f.listing? b).isSome) :
    ∃ g, f.swapBlock b = .ok g ∧ Exchanged f g := by
  obtain ⟨l, hl⟩ := Option.isSome_iff_exists.mp hb
  have hcode : f.code b = .ok l.toArray := code_eq_ok.mpr hl
  have hfold : ∀ (ids : List Id) (g : Func), (∀ i ∈ ids, i ∈ l) → Exchanged f g →
      ∃ g', ids.foldlM swapTargets g = .ok g' ∧ Exchanged f g' := by
    intro ids
    induction ids with
    | nil => exact fun g _ hg => ⟨g, rfl, hg⟩
    | cons i ids ih =>
      intro g hids hg
      rw [List.forall_mem_cons] at hids
      obtain ⟨s, hs, -⟩ := hf.code hl i hids.1
      obtain ⟨s', hs', -⟩ := hg.retargeted.slots hs
      have hswap := swapTargets_eq (f := g) (i := i) (by simp [hs'])
      rw [List.foldlM_cons, hswap, ok_bind]
      exact ih _ hids.2 (hg.tail ⟨i, hswap⟩)
  rw [Func.swapBlock, hcode, ok_bind]
  exact hfold l f (fun _ => id) .refl

/-- A function with a loop, a block that two others lead to, a block without code and one that cannot be
reached. -/
def roundabout : Func :=
  { name := "main"
    isMain := true
    entry := 0
    blocks := #[#[0, 1], #[2], #[3, 4], #[], #[5]]
    slots := #[
      { payload := .read, block := 0, refs := [1] },
      { payload := .branchIf .positive 0 1 2, block := 0 },
      { payload := .branch 3, block := 1 },
      { payload := .read, block := 2, refs := [4] },
      { payload := .branchIf .zero 3 0 3, block := 2 },
      { payload := .branch 0, block := 4 }] }

lemma roundabout_made : Made roundabout := by
  have hblocks := (Made.empty "main" true {}).newBlock.newBlock.newBlock.newBlock.newBlock.entry 0
  have h₀ := hblocks.emit (show Func.emit _ 0 [.read, .branchIf .positive 0 1 2] = .ok _ from rfl)
  have h₁ := h₀.emit (show Func.emit _ 1 [.branch 3] = .ok _ from rfl)
  have h₂ := h₁.emit (show Func.emit _ 2 [.read, .branchIf .zero 3 0 3] = .ok _ from rfl)
  exact h₂.emit (show Func.emit _ 4 [.branch 0] = .ok _ from rfl)

lemma roundabout_closed : roundabout.Closed := by
  refine roundabout_made.closed (by decide) fun i x hx => ?_
  refine forall_live (P := fun _ x => ∀ c ∈ x.targets, (roundabout.listing? c).isSome) ?_ hx
  decide

lemma roundabout_reachable : roundabout.reachable = .ok [0, 1, 3, 2] := by
  have hwalk : walkFrom 5 (fun _ b => roundabout.successors b) (fun (_ : Unit) _ => .ok ()) [] () [0] =
      .ok ((), [2, 3, 1, 0]) := by
    refine (walkFrom_cons _ _ (by decide) (by decide) rfl rfl).trans ?_
    refine (walkFrom_cons _ _ (by decide) (by decide) rfl rfl).trans ?_
    refine (walkFrom_cons _ _ (by decide) (by decide) rfl rfl).trans ?_
    refine (walkFrom_cons _ _ (by decide) (by decide) rfl rfl).trans ?_
    refine (walkFrom_skip (by decide) (by decide)).trans ?_
    refine (walkFrom_skip (by decide) (by decide)).trans ?_
    exact walkFrom_nil
  exact congrArg (fun x => x >>= fun v => .ok v.2.reverse) hwalk

lemma roundabout_calls :
    ∃ g, roundabout.walk (fun st => st.1) (logged swapBlock) (roundabout, []) = .ok (g, [0, 2, 3, 1]) := by
  suffices h : ∃ g, walkFrom 5 (fun (st : Func × List BlockId) b => st.1.successors b) (logged swapBlock)
      [] (roundabout, []) [0] = .ok ((g, [0, 2, 3, 1]), [1, 3, 2, 0]) by
    obtain ⟨g, hwalk⟩ := h
    exact ⟨g, congrArg (fun x => Prod.fst <$> x) hwalk⟩
  apply Exists.intro
  refine (walkFrom_cons _ _ (by decide) (by decide) rfl rfl).trans ?_
  refine (walkFrom_cons _ _ (by decide) (by decide) rfl rfl).trans ?_
  refine (walkFrom_cons _ _ (by decide) (by decide) rfl rfl).trans ?_
  refine (walkFrom_skip (by decide) (by decide)).trans ?_
  refine (walkFrom_cons _ _ (by decide) (by decide) rfl rfl).trans ?_
  refine (walkFrom_skip (by decide) (by decide)).trans ?_
  exact walkFrom_nil

/-- With the targets of every visited block exchanged, the walk goes through the same blocks in another
order. -/
theorem roundabout_swapped :
    roundabout.Closed ∧
      (∀ g b, g.Closed → (g.listing? b).isSome → ∃ g', g.swapBlock b = .ok g' ∧ Exchanged g g') ∧
      (∃ g, roundabout.walk (fun st => st.1) (logged swapBlock) (roundabout, []) = .ok (g, [0, 2, 3, 1])) ∧
      roundabout.VisitOrder [0, 2, 3, 1] ∧
      roundabout.reachable = .ok [0, 1, 3, 2] ∧ roundabout.VisitOrder [0, 1, 3, 2] := by
  have hvisit : ∀ g b, g.Closed → (g.listing? b).isSome →
      ∃ g', g.swapBlock b = .ok g' ∧ Exchanged g g' := fun g b hg hb => hg.swapBlock hb
  obtain ⟨⟨g, calls, -, hwalk, horder⟩, blocks, hblocks, horder'⟩ :=
    @walk_visits_reachable Func id swapBlock roundabout roundabout_closed hvisit
  obtain ⟨g', hwalk'⟩ := roundabout_calls
  obtain rfl : calls = [0, 2, 3, 1] := congrArg Prod.snd (Except.ok.inj (hwalk.symm.trans hwalk'))
  obtain rfl : blocks = [0, 1, 3, 2] := Except.ok.inj (hblocks.symm.trans roundabout_reachable)
  exact ⟨roundabout_closed, hvisit, roundabout_calls, horder, roundabout_reachable, horder'⟩

end Func

end Accumulator.Flow
