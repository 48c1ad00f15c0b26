import Mathlib
import Accumulator.Proofs.RewritingRuns

/-!
# Coalescing keeps functions and their meaning

Coalescing is a chain of rewritings in blocks that control may come to, after which the local
variables without users are erased. It does not break on a well-formed function in which no store is
an operand, its result is well formed, and runs of it agree with runs of the function before but for
the contents of the variables that lost their last user.
-/

namespace Accumulator.Flow.Func

open Reading Accumulator.Exec

variable {f g f' : Func} {b : BlockId} {r : Reading} {k : Nat}

/-- Sound, well formed, and without stores among the operands. -/
structure Tidy (f : Func) : Prop where
  sound : Sound f
  wellFormed : WellFormed f
  storeless : Storeless f

/-- A chain of rewritings in blocks that control may come to. -/
def Coalesces : Func → Func → Prop :=
  Relation.ReflTransGen fun f f' => ∃ b, f.Reaches b ∧ Rewrites f f' b

/-- What a chain of rewritings keeps. -/
structure Kept (f f' : Func) : Prop where
  frame : SameFrame f f'
  vars : ∀ j, f'.varOf? j = f.varOf? j
  blocks : f'.blocks.size = f.blocks.size
  leads : ∀ c d, f'.Leads c d ↔ f.Leads c d
  reaches : ∀ c, f'.Reaches c ↔ f.Reaches c
  used : ∀ w, (f.varOf? w).isSome → Used f' w → Used f w

lemma Kept.refl (f : Func) : Kept f f :=
  ⟨SameFrame.refl f, fun _ => rfl, rfl, fun _ _ => Iff.rfl, fun _ => Iff.rfl, fun _ _ h => h⟩

lemma Kept.trans (h : Kept f g) (h' : Kept g f') : Kept f f' :=
  ⟨h.frame.trans h'.frame, fun j => (h'.vars j).trans (h.vars j), h'.blocks.trans h.blocks,
    fun c d => (h'.leads c d).trans (h.leads c d), fun c => (h'.reaches c).trans (h.reaches c),
    fun w hw hu => h.used w hw (h'.used w (by rw [h.vars]; exact hw) hu)⟩

lemma Kept.framed (h : Kept f g) (hf : Framed f) : Framed g := by
  obtain ⟨slots, blocks, rfl⟩ := h.frame
  intro v hv
  rw [h.vars]
  exact hf v hv

lemma Rewrites.keeps (hf : Tidy f) (hr : f.Reaches b) (h : Rewrites f f' b) :
    Tidy f' ∧ Kept f f' := by
  obtain ⟨v, pre, mid, mid', post, σ, h, hs⟩ := h
  obtain ⟨hw, hst⟩ := h.wellFormed hf.sound hf.wellFormed hr hs hf.storeless
  exact ⟨⟨h.sound, hw, hst⟩, h.frame, h.vars, h.blocks,
    fun c d => h.leads_iff hf.sound hf.wellFormed hr hs,
    fun c => h.reaches_iff hf.sound hf.wellFormed hr hs,
    fun w hw hu => h.used hf.storeless hs hw hu⟩

lemma Coalesces.keeps (hf : Tidy f) (h : Coalesces f g) : Tidy g ∧ Kept f g := by
  induction h with
  | refl => exact ⟨hf, Kept.refl f⟩
  | tail _ hstep ih =>
    obtain ⟨b, hr, hrw⟩ := hstep
    obtain ⟨ht, hk⟩ := hrw.keeps ih.1 hr
    exact ⟨ht, ih.2.trans hk⟩

/-- A chain of rewritings that are counted. -/
def Counts : Nat × Func → Nat × Func → Prop :=
  Relation.ReflTransGen fun st st' =>
    (∃ b, st.2.Reaches b ∧ Rewrites st.2 st'.2 b) ∧ st'.1 = st.1 + 1

lemma Counts.coalesces {st st' : Nat × Func} (h : Counts st st') : Coalesces st.2 st'.2 := by
  induction h with
  | refl => exact .refl
  | tail _ hstep ih => exact ih.tail hstep.1

lemma Rewrites.size (h : Rewrites f f' b) : f'.size + 1 ≤ f.size ∧ f.size ≤ f'.size + 2 := by
  obtain ⟨v, pre, mid, mid', post, σ, hw, hs⟩ := h
  have hsize := size_update hw.blocks hw.before hw.after
  simp only [List.length_append] at hsize
  cases hs <;> simp only [List.length_append, List.length_cons, List.length_nil] at hsize <;> omega

lemma Counts.size {st st' : Nat × Func} (h : Counts st st') :
    st'.2.size + st'.1 ≤ st.2.size + st.1 ∧ st.2.size + 2 * st.1 ≤ st'.2.size + 2 * st'.1 := by
  induction h with
  | refl => exact ⟨le_rfl, le_rfl⟩
  | tail _ hstep ih =>
    obtain ⟨⟨b, -, hrw⟩, hcount⟩ := hstep
    have := hrw.size
    omega

lemma sweep_ok (hr : f.Reaches b) (fuel i n : Nat) (hg : Counts (k, f) (n, g)) (hf : Tidy f) :
    ∃ st, sweep b fuel i (n, g) = .ok st ∧ Counts (k, f) st := by
  induction fuel generalizing i n g with
  | zero => exact ⟨(n, g), rfl, hg⟩
  | succ fuel ih =>
    obtain ⟨ht, hk⟩ := hg.coalesces.keeps hf
    have hrg := (hk.reaches b).mpr hr
    obtain ⟨l, hl, -⟩ := ht.wellFormed.closes hrg
    have hcode : g.code b = .ok l.toArray := code_eq_ok.mpr hl
    obtain ⟨o, ho, hrw⟩ := applyRule_proper l.toArray ht.sound ht.storeless hl i
    rw [sweep, hcode, ok_bind]
    split
    · rw [ho, ok_bind]
      cases o with
      | none => exact ih (i + 1) n hg
      | some g' => exact ih i (n + 1) (hg.tail ⟨⟨b, hrg, hrw g' rfl⟩, rfl⟩)
    · exact ⟨(n, g), rfl, hg⟩

lemma coalesceBlock_ok (hf : Tidy f) (hr : f.Reaches b) {st : Nat × Func} (hg : Counts (k, f) st) :
    ∃ st', coalesceBlock st b = .ok st' ∧ Counts (k, f) st' := by
  obtain ⟨ht, hk⟩ := hg.coalesces.keeps hf
  obtain ⟨l, hl, -⟩ := ht.wellFormed.closes ((hk.reaches b).mpr hr)
  have hcode : st.2.code b = .ok l.toArray := code_eq_ok.mpr hl
  unfold coalesceBlock
  rw [hcode, ok_bind]
  exact sweep_ok hr _ 0 st.1 hg hf

lemma coalesceRounds_ok (hf : Tidy f) (fuel n : Nat) (hg : Counts (0, f) (n, g)) :
    ∃ st, coalesceRounds fuel (n, g) = .ok st ∧ Counts (0, f) st := by
  induction fuel generalizing n g with
  | zero => exact ⟨(n, g), rfl, hg⟩
  | succ fuel ih =>
    obtain ⟨ht, hk⟩ := hg.coalesces.keeps hf
    have hentry : g.entry = f.entry := by
      obtain ⟨slots, blocks, rfl⟩ := hk.frame
      rfl
    have hvalid : ∀ b, f.Reaches b → 0 ≤ b ∧ b < g.blocks.size := by
      intro b hb
      obtain ⟨l, hl, -⟩ := ht.wellFormed.closes ((hk.reaches b).mpr hb)
      exact bounds_of_listing? hl
    obtain ⟨⟨m, g'⟩, visited, hwalk, hst, -⟩ :=
      walkFrom_ok (fun (st : Nat × Func) b => st.2.successors b) coalesceBlock
        (E := f.Leads) (P := f.Reaches) (I := fun _ st => Counts (0, f) st) hvalid
        (fun b c hb hbc => Relation.ReflTransGen.tail hb hbc)
        (fun _ st b hb _ hst => by
          obtain ⟨st', hok, hst'⟩ := coalesceBlock_ok hf hb hst
          obtain ⟨ht', hk'⟩ := hst'.coalesces.keeps hf
          obtain ⟨l, hl, -⟩ := ht'.wellFormed.closes ((hk'.reaches b).mpr hb)
          obtain ⟨succs, hsuccs, hmem⟩ := ht'.sound.successors hl
          exact ⟨st', succs, hok, hst', hsuccs, fun c => (hmem c).trans (hk'.leads b c)⟩)
        [] (n, g) [g.entry] hg (by
          simp only [List.mem_singleton, forall_eq, hentry]
          exact Relation.ReflTransGen.refl) (by simp)
    have hok : g.walk (fun st => st.2) coalesceBlock (n, g) = .ok (m, g') := by
      unfold walk
      rw [hwalk]
      rfl
    rw [coalesceRounds, hok, ok_bind]
    by_cases hmn : m = n
    · exact ⟨(m, g'), if_pos hmn, hst⟩
    · obtain ⟨st, hrest, hst'⟩ := ih m hst
      exact ⟨st, (if_neg hmn).trans hrest, hst'⟩

/-- Whether a slot has a user. -/
def referred (f : Func) (i : Id) : Bool :=
  match f.refs i with
  | .ok (_ :: _) => true
  | _ => false

/-- The blocks, the instructions and their users are the same. Slots may differ in whether they are
alive. -/
structure SameCode (f f' : Func) : Prop where
  blocks : f'.blocks = f.blocks
  payload : ∀ i, f'.payload i = f.payload i
  refs : ∀ i, f'.refs i = f.refs i

lemma SameCode.refl (f : Func) : SameCode f f := ⟨rfl, fun _ => rfl, fun _ => rfl⟩

lemma SameCode.trans (h : SameCode f g) (h' : SameCode g f') : SameCode f f' :=
  ⟨h'.blocks.trans h.blocks, fun i => (h'.payload i).trans (h.payload i),
    fun i => (h'.refs i).trans (h.refs i)⟩

lemma SameCode.referred (h : SameCode f f') : f'.referred = f.referred := by
  funext i
  unfold Func.referred
  rw [h.refs]

lemma sameCode_amend (v : Id) (u : Slot → Slot)
    (hu : ∀ s, (u s).payload = s.payload ∧ (u s).refs = s.refs) : SameCode f (f.amend v u) := by
  refine ⟨rfl, fun i => ?_, fun i => ?_⟩ <;>
  · cases i with
    | negSucc n => rfl
    | ofNat n =>
      simp only [payload, refs, slot, lookup, amend, Array.getElem?_modify]
      by_cases hn : v.toNat = n <;> cases f.slots[n]? <;> simp [hn, hu]

/-- Some variables without users were erased. -/
structure Pruned (f f' : Func) : Prop where
  sound : Sound f'
  vars : ∀ j, f'.varOf? j = f.varOf? j
  code : ∀ c, f'.listing? c = f.listing? c
  blocks : f'.blocks.size = f.blocks.size
  live : ∀ j, f'.live? j = f.live? j ∨ ((f.varOf? j).isSome ∧ ¬ Used f j ∧ f'.live? j = none)

lemma Pruned.refl (hf : Sound f) : Pruned f f :=
  ⟨hf, fun _ => rfl, fun _ => rfl, rfl, fun _ => Or.inl rfl⟩

lemma Pruned.used_iff (h : Pruned f f') {w : Id} : Used f' w ↔ Used f w := by
  constructor
  · rintro ⟨u, x, hx, hw⟩
    rcases h.live u with hu | ⟨-, -, hu⟩
    · exact ⟨u, x, by rw [← hu, hx], hw⟩
    · simp [hu] at hx
  · rintro ⟨u, x, hx, hw⟩
    rcases h.live u with hu | ⟨hv, -, -⟩
    · exact ⟨u, x, by rw [hu, hx], hw⟩
    · rw [varOf?_of_live hx] at hv
      cases x <;> simp [Payload.asVar, Payload.operands] at hv hw

lemma Pruned.trans (h : Pruned f g) (h' : Pruned g f') : Pruned f f' := by
  refine ⟨h'.sound, fun j => (h'.vars j).trans (h.vars j), fun c => (h'.code c).trans (h.code c),
    h'.blocks.trans h.blocks, fun j => ?_⟩
  rcases h'.live j with hj | ⟨hv, hu, hj⟩
  · rcases h.live j with hi | ⟨hv, hu, hi⟩
    · exact Or.inl (hj.trans hi)
    · exact Or.inr ⟨hv, hu, hj.trans hi⟩
  · exact Or.inr ⟨by rw [← h.vars]; exact hv, fun hu' => hu (h.used_iff.mpr hu'), hj⟩

lemma Sound.used_iff (hf : Sound f) {v : Id} {s : Slot} (hs : f.at? v = some s) :
    Used f v ↔ s.refs ≠ [] := by
  constructor
  · rintro ⟨u, x, hx, hv⟩ hnil
    have := (hf.mem_refs_iff hs).mpr ⟨x, hx, hv⟩
    simp [hnil] at this
  · intro hne
    obtain ⟨u, hu⟩ := List.exists_mem_of_ne_nil _ hne
    obtain ⟨x, hx, hv⟩ := (hf.mem_refs_iff hs).mp hu
    exact ⟨u, x, hx, hv⟩

lemma Sound.referred_iff (hf : Sound f) {i : Id} (hi : (f.at? i).isSome) :
    f.referred i = true ↔ Used f i := by
  obtain ⟨s, hs⟩ := Option.isSome_iff_exists.mp hi
  rw [hf.used_iff hs, Func.referred, refs_of_at? hs]
  cases s.refs <;> simp

lemma Sound.erase_var (hf : Sound f) {v : Id} (hv : (f.varOf? v).isSome) (hu : ¬ Used f v) :
    ∃ f', f.erase v = .ok f' ∧ SameFrame f f' ∧ SameCode f f' ∧ Pruned f f' := by
  obtain ⟨s, hs⟩ := Option.isSome_iff_exists.mp (at?_of_varOf? hv)
  have hpay : ∃ w, s.payload = .var w := by
    rw [varOf?_eq, hs] at hv
    cases hp : s.payload with
    | var w => exact ⟨w, rfl⟩
    | _ => simp [hp, Payload.asVar] at hv
  obtain ⟨w, hw⟩ := hpay
  have hrefs : s.refs = [] := by
    by_contra hne
    exact hu ((hf.used_iff hs).mpr hne)
  have hblock : s.block = noBlock := by
    by_contra hb
    obtain ⟨l, hl, hmem⟩ := hf.placed hs hb
    exact hf.var_ne hl hmem hv rfl
  have huses : ∀ d, f.uses v d = s.payload.operands.count d := by
    intro d
    rw [hw]
    cases hx : f.live? v with
    | none => exact uses_of_none hx
    | some x =>
      obtain ⟨t, ht, -, rfl⟩ := live?_eq_some.mp hx
      obtain rfl : s = t := Option.some.inj (hs.symm.trans ht)
      rw [uses_of_live hx, hw]
  obtain ⟨f', hf', -, hb⟩ := hf.erase_unplaced hs hblock huses hrefs
  have heq : f.erase v = .ok (f.amend v fun s => { s with dead := true }) := by
    simp [erase, slot_eq_ok.mpr hs, hrefs, hw, Payload.operands, hblock, updateSlot_eq hs]
  have hsame : SameCode f f' := by
    rw [hf'] at heq
    rw [Except.ok.inj heq]
    exact sameCode_amend v _ fun s => ⟨rfl, rfl⟩
  refine ⟨f', hf', hb.frame, hsame, hb.sound, hb.vars, hb.code, hb.blocks, fun j => ?_⟩
  rw [hb.live, Function.update_apply]
  by_cases hj : j = v
  · exact Or.inr ⟨hj ▸ hv, hj ▸ hu, if_pos hj⟩
  · exact Or.inl (if_neg hj)

lemma pruneLocals_fold (l : List Id) (kept : List Id) (hf : Sound f)
    (hl : ∀ v ∈ l, (f.varOf? v).isSome) :
    ∃ f', l.foldlM (fun (st : Func × List Id) v => do
        if (← st.1.refs v).isEmpty then return (← st.1.erase v, st.2)
        else return (st.1, st.2 ++ [v])) (f, kept) =
          (.ok (f', kept ++ l.filter f.referred) : Except Fault _) ∧
      SameFrame f f' ∧ SameCode f f' ∧ Pruned f f' := by
  induction l generalizing f kept with
  | nil => exact ⟨f, by simp, SameFrame.refl f, SameCode.refl f, Pruned.refl hf⟩
  | cons v l ih =>
    have hv := hl v (by simp)
    have hat := at?_of_varOf? hv
    obtain ⟨s, hs⟩ := Option.isSome_iff_exists.mp hat
    rw [List.foldlM_cons, refs_of_at? hs, ok_bind]
    by_cases hu : Used f v
    · have hne : s.refs.isEmpty = false := by simpa using (hf.used_iff hs).mp hu
      obtain ⟨f', hfold, hrest⟩ := ih (kept ++ [v]) hf fun w hw => hl w (by simp [hw])
      refine ⟨f', ?_, hrest⟩
      rw [if_neg (by simp [hne]), List.filter_cons_of_pos ((hf.referred_iff hat).mpr hu)]
      rw [List.append_assoc] at hfold
      exact hfold
    · have hr : s.refs = [] := by
        by_contra hne
        exact hu ((hf.used_iff hs).mpr hne)
      obtain ⟨f₁, h₁, hframe₁, hm₁, hp₁⟩ := hf.erase_var hv hu
      obtain ⟨f', hfold, hframe, hm, hp⟩ := ih kept hp₁.sound
        fun w hw => by rw [hp₁.vars]; exact hl w (by simp [hw])
      refine ⟨f', ?_, hframe₁.trans hframe, hm₁.trans hm, hp₁.trans hp⟩
      rw [List.filter_cons_of_neg fun h => hu ((hf.referred_iff hat).mp h), ← hm₁.referred]
      simp only [hr, List.isEmpty_nil, if_true, h₁, ok_bind, pure_eq_ok]
      exact hfold

lemma pruneLocals_ok (hf : Sound f) (hframed : Framed f) :
    ∃ f', f.pruneLocals = .ok f' ∧ Pruned f f' ∧ SameCode f f' ∧
      f'.locals = f.locals.filter f.referred ∧
      ∃ slots blocks locals, f' = { f with slots := slots, blocks := blocks, locals := locals } := by
  obtain ⟨g, hfold, ⟨slots, blocks, rfl⟩, hm, hp⟩ :=
    pruneLocals_fold f.locals [] hf fun v hv => hframed v (by simp [hv])
  refine ⟨{ f with slots := slots, blocks := blocks, locals := f.locals.filter f.referred }, ?_, ?_,
    ⟨hm.blocks, hm.payload, hm.refs⟩, rfl, slots, blocks, _, rfl⟩
  · unfold pruneLocals
    rw [List.nil_append] at hfold
    rw [hfold]
    rfl
  · exact ⟨hp.sound.congr (fun _ => rfl) fun _ => rfl, hp.vars, hp.code, hp.blocks, hp.live⟩

lemma Pruned.tidy (hf : Tidy f) (h : Pruned f f') (hentry : f'.entry = f.entry) :
    Tidy f' ∧ ∀ c, f'.Reaches c ↔ f.Reaches c := by
  have hcode : ∀ {c l i}, f.listing? c = some l → i ∈ l → f'.live? i = f.live? i := by
    intro c l i hl hi
    refine (h.live i).resolve_right fun hpruned => ?_
    exact hf.sound.var_ne hl hi hpruned.1 rfl
  have hleads : f'.Leads = f.Leads := by
    funext c d
    apply propext
    constructor
    · rintro ⟨l, t, x, hl, ht, hx, hd⟩
      rw [h.code] at hl
      exact ⟨l, t, x, hl, ht, by rw [← hcode hl (List.mem_of_getLast? ht), hx], hd⟩
    · rintro ⟨l, t, x, hl, ht, hx, hd⟩
      exact ⟨l, t, x, by rw [h.code, hl], ht, by rw [hcode hl (List.mem_of_getLast? ht), hx], hd⟩
  have hreaches : ∀ c, f'.Reaches c ↔ f.Reaches c := by
    intro c
    unfold Reaches
    rw [hleads, hentry]
  have hlive : ∀ {u x}, f'.live? u = some x → f.live? u = some x := by
    intro u x hx
    rcases h.live u with hu | ⟨-, -, hu⟩
    · rw [← hu, hx]
    · simp [hu] at hx
  refine ⟨⟨h.sound, ⟨?_, ?_, ?_⟩, ?_⟩, hreaches⟩
  · intro c hc
    obtain ⟨l, hl, hcl⟩ := hf.wellFormed.closes ((hreaches c).mp hc)
    refine ⟨l, by rw [h.code, hl], hcl.congr fun i hi x hx => ⟨x, ?_, rfl⟩⟩
    rw [hcode hl hi, hx]
  · intro u x hx d hd
    rcases h.live d with hd' | ⟨-, hu, -⟩
    · rw [hd']
      exact hf.wellFormed.operands (hlive hx) d hd
    · exact absurd ⟨u, x, hlive hx, hd⟩ hu
  · intro c pre u post x hc hl hx d hd
    rw [h.code] at hl
    rw [h.vars]
    exact hf.wellFormed.ordered ((hreaches c).mp hc) hl (hlive hx) d hd
  · intro u x hx d hd v src he
    exact hf.storeless (hlive hx) d hd v src (hlive he)

lemma Pruned.sameRuns (hf : Tidy f) (h : Pruned f f') (hface : SameFace f f')
    (hk : r.program.funcs[k]? = some f) (j : Nat) : SameRuns [] r (r.withFunc k f') j := by
  have hsim : Similar [] r (r.withFunc k f') := similar_withFunc hk hface fun i _ => h.vars i
  refine sameRuns_of_alike hsim fun n g hg => ?_
  refine alike_withFunc hk hsim (by simp) (R := f.Reaches) Relation.ReflTransGen.refl
    (fun c hc => ?_) n j g.entry fun hj => ?_
  · obtain ⟨l, hl, -⟩ := hf.wellFormed.closes hc
    refine ⟨l, l, hl, by rw [h.code, hl], fun goTo goTo' hgo hcall => ?_⟩
    have hnil : Alike (Agree []) Eq (r.exec goTo { number := k, func := f } (l ++ []))
        ((r.withFunc k f').exec goTo' { number := k, func := f' } (l ++ [])) :=
      alike_exec_append (U := fun _ => True) (σ := id) hsim hcall
      ⟨rfl, fun d _ => h.vars d, fun _ _ _ _ => ⟨rfl, by simp⟩, fun _ _ => rfl,
        fun _ _ => Value.clean_nothing []⟩
      (fun i hi => by
        obtain ⟨x, hx, hv⟩ := hf.sound.live_of_mem hl hi
        have hx' : f'.live? i = some x := by
          rcases h.live i with hi' | ⟨hvar, -, -⟩
          · rw [hi', hx]
          · exact absurd rfl (hf.sound.var_ne hl hi hvar)
        have hid : x.rename id = x := Payload.rename_of_fixed fun _ _ => rfl
        exact ⟨⟨rfl, fun _ _ hd => hd⟩, x, payload_of_live hx, by rw [hid]; exact payload_of_live hx',
          fun _ _ => trivial, fun t ht => hgo t (hf.wellFormed.reaches_target hc hl hi hx ht)⟩)
      (fun _ _ _ => Alike.throw _)
    simpa using hnil
  · subst hj
    obtain rfl : f = g := Option.some.inj (hk.symm.trans hg)
    exact Relation.ReflTransGen.refl

/-- Runs along a chain of rewritings agree but for the variables that are out of use at its end. -/
lemma Coalesces.sameRuns (hf : Tidy f) (hk : r.program.funcs[k]? = some f) (h : Coalesces f g) :
    ∃ H, Retired k f g H ∧ ∀ j, SameRuns H r (r.withFunc k g) j := by
  induction h with
  | refl =>
    refine ⟨[], by simp [Retired], fun j => ?_⟩
    rw [withFunc_eq_self hk]
    exact SameRuns.refl r j
  | @tail g g' hchain hstep ih =>
    obtain ⟨H, hH, hruns⟩ := ih
    obtain ⟨b, hr, hrw⟩ := hstep
    obtain ⟨ht, hkept⟩ := Coalesces.keeps hf hchain
    obtain ⟨-, hkept'⟩ := hrw.keeps ht hr
    have hkg : (r.withFunc k g).program.funcs[k]? = some g := withFunc_self hk
    obtain ⟨H', hH', -, halike⟩ := hrw.alike ht.sound ht.wellFormed ht.storeless hr hkg
    rw [withFunc_withFunc] at halike
    have hsim : Similar H' (r.withFunc k g) (r.withFunc k g') := by
      obtain ⟨slots, blocks, hframe⟩ := hkept'.frame
      have hface : SameFace g g' := ⟨by rw [hframe], by rw [hframe], fun p _ => hkept'.vars p⟩
      have := similar_withFunc (H := H') hkg hface fun i _ => hkept'.vars i
      rwa [withFunc_withFunc] at this
    refine ⟨H ++ H', ?_, fun j => (hruns j).trans (sameRuns_of_alike hsim fun n q hq => ?_)⟩
    · intro o ho
      rcases List.mem_append.mp ho with ho | ho
      · obtain ⟨v, rfl, hv, hu, hnu⟩ := hH o ho
        exact ⟨v, rfl, hv, hu, fun hu' => hnu (hkept'.used v (by rw [hkept.vars]; exact hv) hu')⟩
      · obtain ⟨v, rfl, hv, hu, hnu⟩ := hH' o ho
        rw [hkept.vars] at hv
        exact ⟨v, rfl, hv, hkept.used v hv hu, hnu⟩
    · refine halike n j q.entry fun hj => ?_
      subst hj
      obtain rfl : g = q := Option.some.inj (hkg.symm.trans hq)
      exact Relation.ReflTransGen.refl

/-- What coalescing gives. -/
structure Coalesced (f f' : Func) : Prop where
  tidy : Tidy f'
  framed : Framed f'
  vars : ∀ j, f'.varOf? j = f.varOf? j
  chain : ∃ g, Coalesces f g ∧ Pruned g f'
  used : ∀ w, (f.varOf? w).isSome → Used f' w → Used f w
  reaches : ∀ c, f'.Reaches c ↔ f.Reaches c
  locals : f'.locals.Sublist f.locals
  kept : ∀ v ∈ f.locals, Used f' v → v ∈ f'.locals
  rest : ∃ slots blocks locals,
    f' = { f with slots := slots, blocks := blocks, locals := locals }

/-- Coalescing does not break, and gives a well-formed function. With every rewriting that is counted
the function loses one or two instructions. -/
theorem Tidy.coalesce_ok (hf : Tidy f) (hframed : Framed f) :
    ∃ n f', f.coalesce = .ok (n, f') ∧ Coalesced f f' ∧
      f'.size + n ≤ f.size ∧ f.size ≤ f'.size + 2 * n := by
  obtain ⟨⟨n, g⟩, hrounds, hcounts⟩ :=
    coalesceRounds_ok hf (f.size + 1) 0 Relation.ReflTransGen.refl
  have hsize : g.size + n ≤ f.size ∧ f.size ≤ g.size + 2 * n := by simpa using hcounts.size
  have hchain : Coalesces f g := hcounts.coalesces
  obtain ⟨ht, hkept⟩ := hchain.keeps hf
  have hframedg := hkept.framed hframed
  obtain ⟨slots, blocks, rfl⟩ := hkept.frame
  set g : Func := { f with slots := slots, blocks := blocks } with hg
  obtain ⟨f', hprune, hp, -, hlocals, slots', blocks', locals', hf'⟩ :=
    pruneLocals_ok ht.sound hframedg
  have hsub : f'.locals.Sublist f.locals := by
    rw [hlocals]
    exact List.filter_sublist
  obtain ⟨ht', hreaches⟩ := hp.tidy ht (by rw [hf'])
  rw [← size_congr hp.blocks hp.code] at hsize
  refine ⟨n, f', ?_, ⟨ht', ?_, fun j => (hp.vars j).trans (hkept.vars j), ⟨g, hchain, hp⟩,
    fun w hw hu => hkept.used w hw (hp.used_iff.mp hu),
    fun c => (hreaches c).trans (hkept.reaches c), hsub, fun v hv hu => ?_,
    slots', blocks', locals', hf'⟩, hsize⟩
  · unfold coalesce
    rw [hrounds, ok_bind]
    simp only [hprune, ok_bind, pure_eq_ok]
  · intro v hv
    rw [hp.vars]
    refine hframedg v ?_
    rcases List.mem_append.mp hv with hv | hv
    · exact List.mem_append.mpr (Or.inl (hsub.subset hv))
    · rw [hf'] at hv
      exact List.mem_append.mpr (Or.inr hv)
  · have hat := at?_of_varOf? (hframedg v (List.mem_append.mpr (Or.inl hv)))
    rw [hlocals, List.mem_filter, ht.sound.referred_iff hat]
    exact ⟨hv, hp.used_iff.mp hu⟩

/-- Runs of a coalesced function agree with runs before but for the variables out of use. -/
theorem Coalesced.sameRuns (hf : Tidy f) (h : Coalesced f f')
    (hk : r.program.funcs[k]? = some f) :
    ∃ H, Retired k f f' H ∧ ∀ j, SameRuns H r (r.withFunc k f') j := by
  obtain ⟨g, hchain, hp⟩ := h.chain
  obtain ⟨ht, hkept⟩ := hchain.keeps hf
  obtain ⟨H, hH, hruns⟩ := hchain.sameRuns hf hk
  obtain ⟨slots, blocks, hg⟩ := hkept.frame
  obtain ⟨slots', blocks', locals', hf'⟩ := h.rest
  have hface : SameFace g f' := ⟨by rw [hf', hg], by rw [hf', hg], fun p _ => hp.vars p⟩
  refine ⟨H, fun o ho => ?_, fun j => ?_⟩
  · obtain ⟨v, rfl, hv, hu, hnu⟩ := hH o ho
    exact ⟨v, rfl, hv, hu, fun hu' => hnu (hp.used_iff.mp hu')⟩
  · have hprune := hp.sameRuns ht hface (r := r.withFunc k g) (withFunc_self hk) j
    rw [withFunc_withFunc] at hprune
    have := (hruns j).trans hprune
    rwa [List.append_nil] at this

end Accumulator.Flow.Func
