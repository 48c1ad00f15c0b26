import Mathlib
import Accumulator.Proofs.Agree
import Accumulator.Proofs.Rewriting

/-!
# Rewriting keeps the meaning

A run of a function in which a coalescing rule was applied agrees with a run of the function before,
at every depth: it takes the same path, with the same reads, writes and calls. Only the variable that
a rule takes out of use may hold something else.
-/

namespace Accumulator.Flow.Func

open Reading Accumulator.Exec

variable {f f' : Func} {b : BlockId} {v : Id} {pre mid mid' post : List Id} {σ : Id → Id}
  {r : Reading} {k : Nat} {H : List Object} {goTo goTo' : Nat → BlockId → Exec Ending}

/-- What code before the window may use. -/
def Early (v : Id) (mid mid' : List Id) (d : Id) : Prop := d ∉ mid ∧ d ∉ mid' ∧ d ≠ v

/-- What code after the window may use. -/
def Late (f : Func) (v : Id) (mid mid' : List Id) (d : Id) : Prop :=
  d ≠ v ∧ (d ∈ mid → ∀ w y, f.live? d ≠ some (.store w y)) ∧ (d ∈ mid' → d ∈ mid)

lemma Shape.users (hs : Shape f f' v pre mid mid' σ) {u : Id} {x : Payload}
    (hu : f.live? u = some x) (hv : v ∈ x.operands) : u ∈ mid := by
  cases hs with
  | drop _ _ hused => simpa using hused.users hu hv
  | swap _ _ _ _ _ _ _ hused =>
    have := hused.users hu hv
    simp at this ⊢
    tauto
  | pair _ _ _ _ _ hused =>
    have := hused.users hu hv
    simp at this ⊢
    tauto
  | double _ _ _ hused => simpa using hused.users hu hv

lemma Shape.var_isSome (hs : Shape f f' v pre mid mid' σ) : (f.varOf? v).isSome := by
  cases hs with
  | drop _ _ hused => exact hused.isSome
  | swap _ _ _ _ _ _ _ hused => exact hused.isSome
  | pair _ _ _ _ _ hused => exact hused.isSome
  | double _ _ _ hused => exact hused.isSome

lemma nonneg_of_varOf? {i : Id} (h : (f.varOf? i).isSome) : 0 ≤ i := by
  obtain ⟨s, hs⟩ := Option.isSome_iff_exists.mp (at?_of_varOf? h)
  exact nonneg_of_at? hs

lemma toNat_ne {i j : Int} (hi : 0 ≤ i) (hj : 0 ≤ j) (h : i ≠ j) : i.toNat ≠ j.toNat := by
  omega

section Window

variable (hf : Sound f) (hw : WellFormed f) (hst : Storeless f) (hr : f.Reaches b)
  (h : Window f f' b pre mid mid' post σ) (hs : Shape f f' v pre mid mid' σ)
  (hH : ∀ o ∈ H, o = ⟨k, v.toNat⟩)
include hs hH

lemma Shape.not_hidden {d : Id} {w : Variable} (hd : f.varOf? d = some w) (hne : d ≠ v) :
    ⟨k, d.toNat⟩ ∉ H := by
  intro hmem
  have hdv : d.toNat = v.toNat := congrArg Object.var (hH _ hmem)
  exact toNat_ne (nonneg_of_varOf? (by rw [hd]; rfl)) (nonneg_of_varOf? hs.var_isSome) hne hdv

include h

lemma Window.tracks_start :
    Tracks H (Early v mid mid') id { number := k, func := f } { number := k, func := f' } :=
  ⟨rfl, fun d _ => h.vars d, fun _ _ hd hw => ⟨rfl, hs.not_hidden hH hw hd.2.2⟩, fun _ _ => rfl,
    fun _ _ => Value.clean_nothing H⟩

omit hH in
/-- Instructions in front of the window and in other blocks are the same on both sides. -/
lemma Window.early {i : Id} {x : Payload} (hi : i ∉ mid ∧ i ∉ mid') (hx : f.live? i = some x)
    (hops : ∀ d ∈ x.operands, d ∉ mid ∧ d ∉ mid') :
    f'.payload i = .ok (x.rename id) ∧ ∀ d ∈ x.operands, Early v mid mid' d := by
  have hid : x.rename id = x.rename σ := by
    rw [Payload.rename, Payload.rename]
    congr 1
    exact List.map_congr_left fun d hd => (h.fixed d (hops d hd).1).symm
  refine ⟨?_, fun d hd => ⟨(hops d hd).1, (hops d hd).2, ?_⟩⟩
  · rw [hid]
    exact payload_of_live (by rw [h.live_map hi, hx]; rfl)
  · rintro rfl
    exact hi.1 (hs.users hx hd)

include hf

lemma Window.tracks_late {vs vs' : Id → Value}
    (hvalues : ∀ d, Late f v mid mid' d → vs' (σ d) = vs d)
    (hclean : ∀ d, Late f v mid mid' d → (vs d).Clean H) :
    Tracks H (Late f v mid mid') σ { number := k, func := f, values := vs }
      { number := k, func := f', values := vs' } := by
  have hvar : ∀ d, Late f v mid mid' d →
      f'.varOf? (σ d) = f.varOf? d ∧ ∀ w, f.varOf? d = some w → σ d = d := by
    intro d hd
    by_cases hm : d ∈ mid
    · have hnone : f.varOf? d = none := by
        by_contra hne
        exact (h.var hf (Option.isSome_iff_ne_none.mpr hne)).1 hm
      have hnone' : f'.varOf? (σ d) = none := by
        by_contra hne
        have hcode : σ d ∈ pre ++ (mid' ++ post) := by
          rcases hs.into d hm with ⟨w, y, hstore⟩ | ⟨hin, -⟩ | ⟨hin, -⟩
          · exact absurd hstore (hd.2.1 hm w y)
          · simp [hin]
          · simp [hin]
        exact h.sound.var_ne h.listing_self hcode (Option.isSome_iff_ne_none.mpr hne) rfl
      exact ⟨by rw [hnone, hnone'], by simp [hnone]⟩
    · rw [h.fixed d hm]
      exact ⟨h.vars d, fun _ _ => rfl⟩
  exact ⟨rfl, fun d hd => (hvar d hd).1,
    fun d w hd hw => ⟨(hvar d hd).2 w hw, hs.not_hidden hH hw hd.1⟩, hvalues, hclean⟩

include hw hst hr

omit hH in
lemma Window.alike_post {r' : Reading} (hsim : Similar H r r') {a a' : Activation}
    (ha : a.number = k ∧ a.func = f) (ha' : a'.func = f')
    (htr : Tracks H (Late f v mid mid') σ a a')
    (hgo : ∀ c, f.Reaches c → Alike (Agree H) Eq (goTo k c) (goTo' k c))
    (hcall : ∀ {j : Nat} {g}, r.program.funcs[j]? = some g →
      Alike (Agree H) Eq (goTo j g.entry) (goTo' j g.entry)) :
    Alike (Agree H) Eq (r.exec goTo a post) (r'.exec goTo' a' post) := by
  have hnil : Alike (Agree H) Eq (r.exec goTo a (post ++ [])) (r'.exec goTo' a' (post ++ [])) := by
    refine alike_exec_append hsim hcall htr (fun i hi => ?_) fun _ _ _ => Alike.throw _
    have hdis := h.disjoint hf (Or.inr hi)
    obtain ⟨x, hx, -⟩ := hf.live_of_mem h.before (i := i) (by simp [hi])
    refine ⟨⟨h.fixed i hdis.1, fun d hd hdi => ?_⟩, x, by rw [ha.2]; exact payload_of_live hx,
      by rw [ha']; exact payload_of_live (by rw [h.live_map hdis, hx]; rfl), fun d hd => ?_,
      fun c hc => ?_⟩
    · by_cases hm : d ∈ mid
      · rcases hs.into d hm with ⟨w, y, hstore⟩ | ⟨hin, -⟩ | ⟨hin, -⟩
        · exact absurd hstore (hd.2.1 hm w y)
        · exact absurd (hdi ▸ hin) hdis.2
        · have hnd := hf.nodup h.before
          rw [hdi] at hin
          simp only [List.nodup_append, List.mem_append] at hnd
          exact absurd rfl (hnd.2.2 i hin i (Or.inr hi))
      · rwa [h.fixed d hm] at hdi
    · refine ⟨?_, fun _ => hst hx d hd, fun hm' => ?_⟩
      · rintro rfl
        exact hdis.1 (hs.users hx hd)
      · refine (h.fresh d hm').resolve_right fun hnone => ?_
        have := hf.operands hx d hd
        simp [hnone] at this
    · rw [ha.1]
      exact hgo c (hw.reaches_target hr h.before (by simp [hi]) hx hc)
  simpa using hnil

end Window

section Shapes

variable {r' : Reading} {x s l a c p m y l₁ l₂ l₃ : Id} {vs vs' : Id → Value}

/-- The code that follows a window is alike once the window was run on both sides. -/
def Resumes (H : List Object) (r r' : Reading) (goTo goTo' : Nat → BlockId → Exec Ending) (k : Nat)
    (f f' : Func) (v : Id) (mid mid' post : List Id) (σ : Id → Id) : Prop :=
  ∀ vs vs', Tracks H (Late f v mid mid') σ { number := k, func := f, values := vs }
      { number := k, func := f', values := vs' } →
    Alike (Agree H) Eq (r.exec goTo { number := k, func := f, values := vs } post)
      (r'.exec goTo' { number := k, func := f', values := vs' } post)

/-- A value from the code in front of the window is known under its name on both sides. -/
lemma Window.early_of_mem (hf : Sound f) (h : Window f f' b pre mid mid' post σ)
    (hv : (f.varOf? v).isSome) (hx : x ∈ pre) : Early v mid mid' x := by
  have hdis := h.disjoint hf (Or.inl hx)
  exact ⟨hdis.1, hdis.2, fun he => hf.var_ne h.before (i := x) (by simp [hx]) hv he.symm⟩

lemma home_ne {w : Id} (hw : (f.varOf? w).isSome) (hv : (f.varOf? v).isSome) (hne : w ≠ v) :
    home k w ≠ home k v := by
  intro he
  have : w.toNat = v.toNat := congrArg (fun c => c.object.var) he
  exact toNat_ne (nonneg_of_varOf? hw) (nonneg_of_varOf? hv) hne this

lemma alike_drop (hf : Sound f) (h : Window f f' b (pre ++ [x]) [s, l] [] post (instead l x))
    (hs : f.live? s = some (.store v x)) (hl : f.live? l = some (.load v))
    (hused : UsedBy f v [s, l]) (hH : H = [⟨k, v.toNat⟩])
    (hpost : Resumes H r r' goTo goTo' k f f' v [s, l] [] post (instead l x))
    (htr : Tracks H (Early v [s, l] []) id { number := k, func := f, values := vs }
      { number := k, func := f', values := vs' }) :
    Alike (Agree H) Eq
      (r.exec goTo { number := k, func := f, values := vs } ([s, l] ++ post))
      (r'.exec goTo' { number := k, func := f', values := vs' } ([] ++ post)) := by
  have hx : Early v [s, l] [] x := h.early_of_mem hf hused.isSome (by simp)
  have hd : ∀ d, Late f v [s, l] [] d → d ≠ l → Early v [s, l] [] d := by
    intro d hd hdl
    have hds : d ≠ s := fun he => hd.2.1 (by simp [he]) v x (he ▸ hs)
    exact ⟨by simp [hdl, hds], by simp, hd.1⟩
  intro p q hpq
  change Matching _ _ ((r.exec goTo _ (s :: l :: post)).run p) _
  rw [run_exec_store hs hused.isSome, run_exec_load (Or.inl hl) hused.isSome, store_cells_self]
  refine hpost _ vs' (h.tracks_late hf (Shape.drop hs hl hused) (by simp [hH])
    (fun d hlate => ?_) fun d hlate => ?_) _ _
    (hpq.hide (by simp [hH, home]) (htr.clean x hx))
  · by_cases hdl : d = l
    · subst hdl
      simpa using htr.values x hx
    · rw [instead_of_ne hdl, if_neg hdl]
      exact htr.values d (hd d hlate hdl)
  · split
    · exact htr.clean x hx
    · rename_i hdl
      exact htr.clean d (hd d hlate hdl)

lemma alike_pair (hf : Sound f)
    (h : Window f f' b (pre ++ [x]) [s, a, c] [p] post (paired a c p x))
    (hs : f.live? s = some (.store v x)) (ha : f.live? a = some (.load m))
    (hc : f.live? c = some (.load v)) (hm : (f.varOf? m).isSome) (hmv : m ≠ v)
    (hused : UsedBy f v [s, c]) (hp : f'.live? p = some (.loadPair m)) (hnew : f.at? p = none)
    (hH : H = [⟨k, v.toNat⟩])
    (hpost : Resumes H r r' goTo goTo' k f f' v [s, a, c] [p] post (paired a c p x))
    (htr : Tracks H (Early v [s, a, c] [p]) id { number := k, func := f, values := vs }
      { number := k, func := f', values := vs' }) :
    Alike (Agree H) Eq
      (r.exec goTo { number := k, func := f, values := vs } ([s, a, c] ++ post))
      (r'.exec goTo' { number := k, func := f', values := vs' } ([p] ++ post)) := by
  have hshape : Shape f f' v (pre ++ [x]) [s, a, c] [p] (paired a c p x) :=
    Shape.pair hs ha hc hm hmv hused hp hnew
  have hx : Early v [s, a, c] [p] x := h.early_of_mem hf hused.isSome (by simp)
  have hac : a ≠ c := by
    rintro rfl
    have := Option.some.inj (ha.symm.trans hc)
    exact hmv (by simpa using this)
  have hd : ∀ d, Late f v [s, a, c] [p] d → d ≠ a → d ≠ c → Early v [s, a, c] [p] d := by
    intro d hd hda hdc
    have hds : d ≠ s := fun he => hd.2.1 (by simp [he]) v x (he ▸ hs)
    have hmid : d ∉ [s, a, c] := by simp [hda, hdc, hds]
    exact ⟨hmid, fun hin => hmid (hd.2.2 hin), hd.1⟩
  have hcell : (home k m).object ∉ H := by
    obtain ⟨w, hw⟩ := Option.isSome_iff_exists.mp hm
    exact hshape.not_hidden (by simp [hH]) hw hmv
  intro q q' hq
  change Matching _ _ ((r.exec goTo _ (s :: a :: c :: post)).run q)
    ((r'.exec goTo' _ (p :: post)).run q')
  rw [run_exec_store hs hused.isSome, run_exec_load (Or.inl ha) hm,
    run_exec_load (Or.inl hc) hused.isSome, store_cells_self,
    store_cells_of_ne _ (home_ne hm hused.isSome hmv),
    run_exec_load (Or.inr hp) (by rw [h.vars]; exact hm), ← hq.cells _ hcell]
  refine hpost _ _ (h.tracks_late hf hshape (by simp [hH]) (fun d hlate => ?_)
    fun d hlate => ?_) _ _ (hq.hide (by simp [hH, home]) (htr.clean x hx))
  · by_cases hda : d = a
    · subst hda
      simp [paired, hac]
    · by_cases hdc : d = c
      · subst hdc
        have hxp : x ≠ p := fun he => hx.2.1 (by simp [he])
        simpa [paired, hda, hxp] using htr.values x hx
      · have hearly := hd d hlate hda hdc
        have hdp : d ≠ p := fun he => hearly.2.1 (by simp [he])
        simpa [paired, hda, hdc, hdp] using htr.values d hearly
  · split
    · exact htr.clean x hx
    · split
      · exact hq.clean _
      · rename_i hdc hda
        exact htr.clean d (hd d hlate hda hdc)

lemma alike_double (hf : Sound f)
    (h : Window f f' b (pre ++ [x]) [s, a, c] [s, p] post (paired a c p x))
    (hs : f.live? s = some (.store v x)) (ha : f.live? a = some (.load v))
    (hc : f.live? c = some (.load v)) (hused : UsedBy f v [s, a, c])
    (hs' : f'.live? s = some (.store v x)) (hp : f'.live? p = some (.loadPair v))
    (hnew : f.at? p = none) (hH : H = [])
    (hpost : Resumes H r r' goTo goTo' k f f' v [s, a, c] [s, p] post (paired a c p x))
    (htr : Tracks H (Early v [s, a, c] [s, p]) id { number := k, func := f, values := vs }
      { number := k, func := f', values := vs' }) :
    Alike (Agree H) Eq
      (r.exec goTo { number := k, func := f, values := vs } ([s, a, c] ++ post))
      (r'.exec goTo' { number := k, func := f', values := vs' } ([s, p] ++ post)) := by
  have hx : Early v [s, a, c] [s, p] x := h.early_of_mem hf hused.isSome (by simp)
  have hd : ∀ d, Late f v [s, a, c] [s, p] d → d ≠ a → d ≠ c → Early v [s, a, c] [s, p] d := by
    intro d hd hda hdc
    have hds : d ≠ s := fun he => hd.2.1 (by simp [he]) v x (he ▸ hs)
    have hmid : d ∉ [s, a, c] := by simp [hda, hdc, hds]
    exact ⟨hmid, fun hin => hmid (hd.2.2 hin), hd.1⟩
  have hv' : (f'.varOf? v).isSome := by
    rw [h.vars]
    exact hused.isSome
  have hvx : vs' x = vs x := htr.values x hx
  intro q q' hq
  change Matching _ _ ((r.exec goTo _ (s :: a :: c :: post)).run q)
    ((r'.exec goTo' _ (s :: p :: post)).run q')
  rw [run_exec_store hs hused.isSome, run_exec_load (Or.inl ha) hused.isSome,
    run_exec_load (Or.inl hc) hused.isSome, store_cells_self, run_exec_store hs' hv',
    run_exec_load (Or.inr hp) hv', store_cells_self, hvx]
  refine hpost _ _ (h.tracks_late hf (Shape.double hs ha hc hused hs' hp hnew) (by simp [hH])
    (fun d hlate => ?_) fun d hlate => ?_) _ _ (hq.store _ (htr.clean x hx))
  · by_cases hda : d = a
    · subst hda
      simp [paired]
    · by_cases hdc : d = c
      · subst hdc
        have hxp : x ≠ p := fun he => hx.2.1 (by simp [he])
        simpa [paired, hda, hxp] using hvx
      · have hearly := hd d hlate hda hdc
        have hdp : d ≠ p := fun he => hearly.2.1 (by simp [he])
        simpa [paired, hda, hdc, hdp] using htr.values d hearly
  · split
    · exact htr.clean x hx
    · split
      · exact htr.clean x hx
      · rename_i hdc hda
        exact htr.clean d (hd d hlate hda hdc)

lemma alike_swap (hf : Sound f)
    (h : Window f f' b pre [l₁, s, l₂, l₃] [l₂, l₁] post (instead l₃ l₁))
    (h₁ : f.live? l₁ = some (.load x)) (hs : f.live? s = some (.store v l₁))
    (h₂ : f.live? l₂ = some (.load y)) (h₃ : f.live? l₃ = some (.load v))
    (hx : (f.varOf? x).isSome) (hy : (f.varOf? y).isSome) (hyv : y ≠ v)
    (hused : UsedBy f v [s, l₃]) (h₁' : f'.live? l₁ = some (.load x))
    (h₂' : f'.live? l₂ = some (.load y)) (hH : H = [⟨k, v.toNat⟩])
    (hpost : Resumes H r r' goTo goTo' k f f' v [l₁, s, l₂, l₃] [l₂, l₁] post (instead l₃ l₁))
    (htr : Tracks H (Early v [l₁, s, l₂, l₃] [l₂, l₁]) id
      { number := k, func := f, values := vs } { number := k, func := f', values := vs' }) :
    Alike (Agree H) Eq
      (r.exec goTo { number := k, func := f, values := vs } ([l₁, s, l₂, l₃] ++ post))
      (r'.exec goTo' { number := k, func := f', values := vs' } ([l₂, l₁] ++ post)) := by
  have hshape : Shape f f' v pre [l₁, s, l₂, l₃] [l₂, l₁] (instead l₃ l₁) :=
    Shape.swap h₁ hs h₂ h₃ hx hy hyv hused h₁' h₂'
  obtain ⟨h12, h13, h23⟩ : l₁ ≠ l₂ ∧ l₁ ≠ l₃ ∧ l₂ ≠ l₃ := by
    have := hf.nodup h.before
    simp [List.nodup_append] at this
    tauto
  have hxv : x ≠ v := by
    rintro rfl
    have := hused.users h₁ mem_operands_load
    rcases List.mem_pair.mp this with he | he
    · rw [he, hs] at h₁
      cases h₁
    · exact h13 he
  have hcell : ∀ {w : Id}, (f.varOf? w).isSome → w ≠ v → (home k w).object ∉ H := by
    intro w hw hne
    obtain ⟨z, hz⟩ := Option.isSome_iff_exists.mp hw
    exact hshape.not_hidden (by simp [hH]) hz hne
  have hd : ∀ d, Late f v [l₁, s, l₂, l₃] [l₂, l₁] d → d ≠ l₁ → d ≠ l₂ → d ≠ l₃ →
      Early v [l₁, s, l₂, l₃] [l₂, l₁] d := by
    intro d hd hd1 hd2 hd3
    have hds : d ≠ s := fun he => hd.2.1 (by simp [he]) v l₁ (he ▸ hs)
    exact ⟨by simp [hd1, hd2, hd3, hds], by simp [hd1, hd2], hd.1⟩
  intro q q' hq
  change Matching _ _ ((r.exec goTo _ (l₁ :: s :: l₂ :: l₃ :: post)).run q)
    ((r'.exec goTo' _ (l₂ :: l₁ :: post)).run q')
  rw [run_exec_load (Or.inl h₁) hx, run_exec_store hs hused.isSome,
    run_exec_load (Or.inl h₂) hy, run_exec_load (Or.inl h₃) hused.isSome, store_cells_self,
    store_cells_of_ne _ (home_ne hy hused.isSome hyv),
    run_exec_load (Or.inl h₂') (by rw [h.vars]; exact hy),
    run_exec_load (Or.inl h₁') (by rw [h.vars]; exact hx),
    ← hq.cells _ (hcell hx hxv), ← hq.cells _ (hcell hy hyv), if_pos rfl]
  refine hpost _ _ (h.tracks_late hf hshape (by simp [hH]) (fun d hlate => ?_)
    fun d hlate => ?_) _ _ (hq.hide (by simp [hH, home]) (hq.clean _))
  · by_cases hd3 : d = l₃
    · subst hd3
      simp
    · rw [instead_of_ne hd3]
      by_cases hd1 : d = l₁
      · subst hd1
        simp [h12, hd3]
      · by_cases hd2 : d = l₂
        · subst hd2
          simp [hd1, hd3]
        · simpa [hd1, hd2, hd3] using htr.values d (hd d hlate hd1 hd2 hd3)
  · by_cases hd3 : d = l₃
    · simpa [hd3] using hq.clean _
    · by_cases hd2 : d = l₂
      · simpa [hd2, h23] using hq.clean _
      · by_cases hd1 : d = l₁
        · simpa [hd1, h12, h13] using hq.clean _
        · simpa [hd1, hd2, hd3] using htr.clean d (hd d hlate hd1 hd2 hd3)

end Shapes

/-- A variable that some live instruction uses. -/
def Used (f : Func) (w : Id) : Prop := ∃ u x, f.live? u = some x ∧ w ∈ x.operands

lemma Window.var_of_rename (hst : Storeless f)
    (h : Window f f' b pre mid mid' post σ)
    (hs : Shape f f' v pre mid mid' σ) {u d : Id} {x : Payload} (hx : f.live? u = some x)
    (hd : d ∈ x.operands) (hw : (f.varOf? (σ d)).isSome) : σ d = d := by
  by_cases hm : d ∈ mid
  · have hcode : σ d ∈ pre ++ (mid' ++ post) := by
      rcases hs.into d hm with ⟨w, y, hstore⟩ | ⟨hin, -⟩ | ⟨hin, -⟩
      · exact absurd hstore (hst hx d hd w y)
      · simp [hin]
      · simp [hin]
    rw [← h.vars] at hw
    exact absurd rfl (h.sound.var_ne h.listing_self hcode hw)
  · exact h.fixed d hm

lemma Window.used (hst : Storeless f) (h : Window f f' b pre mid mid' post σ)
    (hs : Shape f f' v pre mid mid' σ) {w : Id} (hw : (f.varOf? w).isSome) (hu : Used f' w) :
    Used f w := by
  obtain ⟨u, x', hx', hwx⟩ := hu
  rcases h.live_cases hx' with hm' | ⟨-, -, x, hx, rfl⟩
  · obtain ⟨z, hz, -, hops⟩ := hs.supplied u hm'
    obtain rfl : x' = z := Option.some.inj (hx'.symm.trans hz)
    exact (hops w hwx).2
  · rw [Payload.operands_rename] at hwx
    obtain ⟨d, hd, rfl⟩ := List.mem_map.mp hwx
    rw [h.var_of_rename hst hs hx hd hw]
    exact ⟨u, x, hx, hd⟩

lemma Window.unused (hst : Storeless f) (h : Window f f' b pre mid mid' post σ)
    (hs : Shape f f' v pre mid mid' σ)
    (hmid : ∀ u ∈ mid', ∀ x, f'.live? u = some x → v ∉ x.operands) : ¬ Used f' v := by
  rintro ⟨u, x', hx', hv⟩
  rcases h.live_cases hx' with hm' | ⟨hm, -, x, hx, rfl⟩
  · exact hmid u hm' x' hx' hv
  · rw [Payload.operands_rename] at hv
    obtain ⟨d, hd, he⟩ := List.mem_map.mp hv
    have hdv : σ d = d := h.var_of_rename hst hs hx hd (by rw [he]; exact hs.var_isSome)
    rw [he] at hdv
    exact hm (hs.users hx (hdv ▸ hd))

section Whole

variable (hf : Sound f) (hw : WellFormed f) (hst : Storeless f) (hr : f.Reaches b)
  (hk : r.program.funcs[k]? = some f) (h : Window f f' b pre mid mid' post σ)
  (hs : Shape f f' v pre mid mid' σ) (hH : ∀ o ∈ H, o = ⟨k, v.toNat⟩)
include hf hw h hs hH

lemma Window.alike_early {r' : Reading} (hsim : Similar H r r') {c : BlockId} {l₁ l₂ : List Id} (l₂' : List Id)
    (hc : f.Reaches c) (hl : f.listing? c = some (l₁ ++ l₂))
    (hfree : ∀ i ∈ l₁, i ∉ mid ∧ i ∉ mid')
    (hgo : ∀ c, f.Reaches c → Alike (Agree H) Eq (goTo k c) (goTo' k c))
    (hcall : ∀ {j : Nat} {g}, r.program.funcs[j]? = some g →
      Alike (Agree H) Eq (goTo j g.entry) (goTo' j g.entry))
    (hrest : ∀ vs vs', Tracks H (Early v mid mid') id { number := k, func := f, values := vs }
        { number := k, func := f', values := vs' } →
      Alike (Agree H) Eq (r.exec goTo { number := k, func := f, values := vs } l₂)
        (r'.exec goTo' { number := k, func := f', values := vs' } l₂')) :
    Alike (Agree H) Eq (r.exec goTo { number := k, func := f } (l₁ ++ l₂))
      (r'.exec goTo' { number := k, func := f' } (l₁ ++ l₂')) := by
  refine alike_exec_append hsim hcall (h.tracks_start hs hH) (fun i hi => ?_) hrest
  obtain ⟨x, hx, -⟩ := hf.live_of_mem hl (i := i) (by simp [hi])
  have hops : ∀ d ∈ x.operands, d ∉ mid ∧ d ∉ mid' := by
    intro d hd
    obtain ⟨A, B, rfl⟩ := List.append_of_mem hi
    rw [List.append_assoc, List.cons_append] at hl
    rcases hw.ordered hc hl hx d hd with hv | hin
    · exact h.var hf hv
    · exact hfree d (by simp [hin])
  obtain ⟨hp', hearly⟩ := h.early hs (hfree i hi) hx hops
  exact ⟨⟨rfl, fun _ _ hd => hd⟩, x, payload_of_live hx, hp', hearly,
    fun t ht => hgo t (hw.reaches_target hc hl (by simp [hi]) hx ht)⟩

include hst hr

lemma Window.alike_code {r' : Reading} (hsim : Similar H r r')
    (hmid : ∀ goTo goTo' vs vs', Resumes H r r' goTo goTo' k f f' v mid mid' post σ →
      Tracks H (Early v mid mid') id { number := k, func := f, values := vs }
        { number := k, func := f', values := vs' } →
      Alike (Agree H) Eq (r.exec goTo { number := k, func := f, values := vs } (mid ++ post))
        (r'.exec goTo' { number := k, func := f', values := vs' } (mid' ++ post)))
    {c : BlockId} (hc : f.Reaches c) :
    ∃ l l', f.listing? c = some l ∧ f'.listing? c = some l' ∧
      ∀ goTo goTo' : Nat → BlockId → Exec Ending,
        (∀ c, f.Reaches c → Alike (Agree H) Eq (goTo k c) (goTo' k c)) →
        (∀ {j : Nat} {g}, r.program.funcs[j]? = some g →
          Alike (Agree H) Eq (goTo j g.entry) (goTo' j g.entry)) →
        Alike (Agree H) Eq (r.exec goTo { number := k, func := f } l)
          (r'.exec goTo' { number := k, func := f' } l') := by
  by_cases hcb : c = b
  · subst hcb
    refine ⟨_, _, h.before, h.listing_self, fun goTo goTo' hgo hcall => ?_⟩
    refine h.alike_early hf hw hs hH hsim _ hc h.before (fun i hi => h.disjoint hf (Or.inl hi)) hgo
      hcall fun vs vs' htr => hmid goTo goTo' vs vs' (fun ws ws' hlate => ?_) htr
    exact h.alike_post hf hw hst hr hs hsim ⟨rfl, rfl⟩ rfl hlate hgo hcall
  · obtain ⟨l, hl, -⟩ := hw.closes hc
    refine ⟨l, l, hl, by rw [h.listing_of_ne hcb, hl], fun goTo goTo' hgo hcall => ?_⟩
    have hl' : f.listing? c = some (l ++ []) := by rw [hl, List.append_nil]
    have hnil := h.alike_early hf hw hs hH hsim [] hc hl' (fun i hi => h.other hf hcb hl hi) hgo hcall
      (fun _ _ _ => Alike.throw _)
    simpa using hnil

end Whole

lemma Window.sameFace (h : Window f f' b pre mid mid' post σ) : SameFace f f' := by
  obtain ⟨slots, blocks, heq⟩ := h.frame
  exact ⟨by rw [heq], by rw [heq], fun p _ => h.vars p⟩

/-- The objects that a rewriting may leave different: the variable that it takes out of use. -/
def Retired (k : Nat) (f f' : Func) (H : List Object) : Prop :=
  ∀ o ∈ H, ∃ v, o = ⟨k, v.toNat⟩ ∧ (f.varOf? v).isSome ∧ Used f v ∧ ¬ Used f' v

/-- Runs of a program in which a rule was applied to one function agree with runs before. -/
theorem Rewrites.alike (hf : Sound f) (hw : WellFormed f) (hst : Storeless f)
    (hr : f.Reaches b) (hk : r.program.funcs[k]? = some f) (h : Rewrites f f' b) :
    ∃ H, Retired k f f' H ∧ (∀ o ∈ H, o.func = k) ∧
      ∀ n j c, (j = k → f.Reaches c) →
        Alike (Agree H) Eq (r.block n j c) ((r.withFunc k f').block n j c) := by
  obtain ⟨v, pre, mid, mid', post, σ, h, hs⟩ := h
  have hsim : ∀ H, Similar H r (r.withFunc k f') :=
    fun H => similar_withFunc hk h.sameFace fun i _ => h.vars i
  have key : ∀ H, (∀ o ∈ H, o = ⟨k, v.toNat⟩) → (H = [] ∨ ¬ Used f' v) →
      (∀ goTo goTo' vs vs', Resumes H r (r.withFunc k f') goTo goTo' k f f' v mid mid' post σ →
        Tracks H (Early v mid mid') id { number := k, func := f, values := vs }
          { number := k, func := f', values := vs' } →
        Alike (Agree H) Eq (r.exec goTo { number := k, func := f, values := vs } (mid ++ post))
          ((r.withFunc k f').exec goTo' { number := k, func := f', values := vs' }
            (mid' ++ post))) →
      ∃ H, Retired k f f' H ∧ (∀ o ∈ H, o.func = k) ∧ ∀ n j c, (j = k → f.Reaches c) →
        Alike (Agree H) Eq (r.block n j c) ((r.withFunc k f').block n j c) := by
    intro H hH hused hmid
    have hfunc : ∀ o ∈ H, o.func = k := fun o ho => by rw [hH o ho]
    refine ⟨H, fun o ho => ⟨v, hH o ho, hs.var_isSome, ?_, ?_⟩, hfunc,
      alike_withFunc hk (hsim H) hfunc (R := f.Reaches) Relation.ReflTransGen.refl fun c hc =>
        h.alike_code hf hw hst hr hs hH (hsim H) hmid hc⟩
    · cases hs with
      | drop h₁ => exact ⟨_, _, h₁, mem_operands_store⟩
      | swap _ h₁ => exact ⟨_, _, h₁, mem_operands_store⟩
      | pair h₁ => exact ⟨_, _, h₁, mem_operands_store⟩
      | double h₁ => exact ⟨_, _, h₁, mem_operands_store⟩
    · refine hused.resolve_left ?_
      rintro rfl
      simp at ho
  have hone : ∀ o ∈ [(⟨k, v.toNat⟩ : Object)], o = ⟨k, v.toNat⟩ := by simp
  cases id hs with
  | drop h₁ h₂ h₃ =>
    refine key _ hone (Or.inr (h.unused hst hs (by simp))) ?_
    exact fun goTo goTo' vs vs' hpost htr => alike_drop hf h h₁ h₂ h₃ rfl hpost htr
  | @swap _ _ x y s l₁ l₂ l₃ h₁ h₂ h₃ h₄ hx hy hyv h₅ h₁' h₃' =>
    have hxv : x ≠ v := by
      rintro rfl
      have hnd := hf.nodup h.before
      have := h₅.users h₁ mem_operands_load
      rcases List.mem_pair.mp this with rfl | rfl
      · rw [h₁] at h₂
        cases h₂
      · simp [List.nodup_append] at hnd
    refine key _ hone (Or.inr (h.unused hst hs ?_)) ?_
    · simp only [List.forall_mem_cons, List.not_mem_nil, false_implies, implies_true, and_true]
      refine ⟨fun z hz => ?_, fun z hz => ?_⟩
      · obtain rfl := Option.some.inj (h₃'.symm.trans hz)
        simpa [Payload.operands] using hyv.symm
      · obtain rfl := Option.some.inj (h₁'.symm.trans hz)
        simpa [Payload.operands] using hxv.symm
    · exact fun goTo goTo' vs vs' hpost htr =>
        alike_swap hf h h₁ h₂ h₃ h₄ hx hy hyv h₅ h₁' h₃' rfl hpost htr
  | pair h₁ h₂ h₃ hm hmv h₄ h₅ h₆ =>
    refine key _ hone (Or.inr (h.unused hst hs ?_)) ?_
    · simp only [List.forall_mem_cons, List.not_mem_nil, false_implies, implies_true, and_true]
      intro z hz
      obtain rfl := Option.some.inj (h₅.symm.trans hz)
      simpa [Payload.operands] using hmv.symm
    · exact fun goTo goTo' vs vs' hpost htr =>
        alike_pair hf h h₁ h₂ h₃ hm hmv h₄ h₅ h₆ rfl hpost htr
  | double h₁ h₂ h₃ h₄ h₅ h₆ h₇ =>
    refine key [] (by simp) (Or.inl rfl) ?_
    exact fun goTo goTo' vs vs' hpost htr =>
      alike_double hf h h₁ h₂ h₃ h₄ h₅ h₆ h₇ rfl hpost htr

end Accumulator.Flow.Func
