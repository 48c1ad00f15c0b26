import Mathlib
import Accumulator.Proofs.Rules

/-!
# Rewriting keeps functions well formed

An application of a coalescing rule leaves the flow between blocks alone, keeps operands in front of
their users and makes no store an operand.
-/

namespace Accumulator.Flow.Func

variable {f f' : Func} {b : BlockId} {v : Id} {pre mid mid' post : List Id} {σ : Id → Id}

lemma Shape.plain (h : Shape f f' v pre mid mid' σ) :
    mid ≠ [] ∧ ∀ j ∈ mid, ∃ x, f.live? j = some x ∧ x.isTerminal = false := by
  cases h with
  | drop hs hl =>
    refine ⟨by simp, ?_⟩
    simp only [List.forall_mem_cons, List.not_mem_nil, false_implies, implies_true, and_true]
    exact ⟨⟨_, hs, rfl⟩, ⟨_, hl, rfl⟩⟩
  | swap h₁ hs h₂ h₃ =>
    refine ⟨by simp, ?_⟩
    simp only [List.forall_mem_cons, List.not_mem_nil, false_implies, implies_true, and_true]
    exact ⟨⟨_, h₁, rfl⟩, ⟨_, hs, rfl⟩, ⟨_, h₂, rfl⟩, ⟨_, h₃, rfl⟩⟩
  | pair hs ha hc =>
    refine ⟨by simp, ?_⟩
    simp only [List.forall_mem_cons, List.not_mem_nil, false_implies, implies_true, and_true]
    exact ⟨⟨_, hs, rfl⟩, ⟨_, ha, rfl⟩, ⟨_, hc, rfl⟩⟩
  | double hs ha hc =>
    refine ⟨by simp, ?_⟩
    simp only [List.forall_mem_cons, List.not_mem_nil, false_implies, implies_true, and_true]
    exact ⟨⟨_, hs, rfl⟩, ⟨_, ha, rfl⟩, ⟨_, hc, rfl⟩⟩

/-- What the new instructions use: variables, and values that an earlier instruction already used
before. -/
def Supplied (f : Func) (pre : List Id) (x : Payload) : Prop :=
  x.isTerminal = false ∧ ∀ d ∈ x.operands,
    ((f.varOf? d).isSome ∨ d ∈ pre) ∧ ∃ u y, f.live? u = some y ∧ d ∈ y.operands

lemma UsedBy.isSome {us : List Id} (h : UsedBy f v us) : (f.varOf? v).isSome := by
  obtain ⟨w, hw, -⟩ := h.frame
  rw [hw]
  rfl

lemma Shape.supplied (h : Shape f f' v pre mid mid' σ) :
    ∀ j ∈ mid', ∃ x, f'.live? j = some x ∧ Supplied f pre x := by
  have hload : ∀ {u d : Id}, f.live? u = some (.load d) → (f.varOf? d).isSome →
      Supplied f pre (.load d) ∧ Supplied f pre (.loadPair d) := by
    intro u d hu hd
    have hmem : ∀ e ∈ [d], ((f.varOf? e).isSome ∨ e ∈ pre) ∧
        ∃ u y, f.live? u = some y ∧ e ∈ y.operands := by
      intro e he
      obtain rfl : e = d := by simpa using he
      exact ⟨Or.inl hd, u, _, hu, mem_operands_load⟩
    exact ⟨⟨rfl, hmem⟩, ⟨rfl, hmem⟩⟩
  cases h with
  | drop hs hl => simp
  | swap h₁ hs h₂ h₃ hx hy hyv hv h₁' h₂' =>
    simp only [List.forall_mem_cons, List.not_mem_nil, false_implies, implies_true, and_true]
    exact ⟨⟨_, h₂', (hload h₂ hy).1⟩, ⟨_, h₁', (hload h₁ hx).1⟩⟩
  | pair hs ha hc hm hmv hv hp =>
    simp only [List.forall_mem_cons, List.not_mem_nil, false_implies, implies_true, and_true]
    exact ⟨_, hp, (hload ha hm).2⟩
  | @double pre v x s a c p hs ha hc hv hs' hp =>
    simp only [List.forall_mem_cons, List.not_mem_nil, false_implies, implies_true, and_true]
    refine ⟨⟨_, hs', rfl, ?_⟩, ⟨_, hp, (hload ha hv.isSome).2⟩⟩
    intro d hd
    refine ⟨?_, s, _, hs, hd⟩
    rcases List.mem_pair.mp hd with rfl | rfl
    · exact Or.inl hv.isSome
    · exact Or.inr (by simp)

/-- What the users of a removed instruction take instead: a new instruction, or a value that an
earlier instruction already used before. -/
lemma Shape.into (h : Shape f f' v pre mid mid' σ) :
    ∀ j ∈ mid, (∃ d src, f.live? j = some (.store d src)) ∨
      (σ j ∈ mid' ∧ ∀ d src, f'.live? (σ j) ≠ some (.store d src)) ∨
      (σ j ∈ pre ∧ ∃ u y, f.live? u = some y ∧ σ j ∈ y.operands) := by
  have hx : ∀ {s w x : Id}, f.live? s = some (.store w x) →
      ∃ u y, f.live? u = some y ∧ x ∈ y.operands := by
    intro s w x hs
    exact ⟨s, _, hs, by simp [Payload.operands]⟩
  cases h with
  | drop hs hl =>
    simp only [List.forall_mem_cons, List.not_mem_nil, false_implies, implies_true, and_true]
    refine ⟨Or.inl ⟨_, _, hs⟩, Or.inr (Or.inr ?_)⟩
    rw [instead_self]
    exact ⟨by simp, hx hs⟩
  | @swap pre v x y s l₁ l₂ l₃ h₁ hs h₂ h₃ hx hy hyv hv h₁' h₂' =>
    have hl₁ : ∀ d src, f'.live? l₁ ≠ some (.store d src) := by simp [h₁']
    have hl₂ : ∀ d src, f'.live? l₂ ≠ some (.store d src) := by simp [h₂']
    simp only [List.forall_mem_cons, List.not_mem_nil, false_implies, implies_true, and_true]
    refine ⟨Or.inr (Or.inl ?_), Or.inl ⟨_, _, hs⟩, Or.inr (Or.inl ?_), Or.inr (Or.inl ?_)⟩
    · have : instead l₃ l₁ l₁ = l₁ := by simp [instead]
      rw [this]
      exact ⟨by simp, hl₁⟩
    · unfold instead
      split
      · exact ⟨by simp, hl₁⟩
      · exact ⟨by simp, hl₂⟩
    · rw [instead_self]
      exact ⟨by simp, hl₁⟩
  | @pair pre v x m s a c p hs ha hc hm hmv hv hp =>
    have hlp : ∀ d src, f'.live? p ≠ some (.store d src) := by simp [hp]
    simp only [List.forall_mem_cons, List.not_mem_nil, false_implies, implies_true, and_true]
    refine ⟨Or.inl ⟨_, _, hs⟩, Or.inr (Or.inl ?_), Or.inr ?_⟩
    · simp [paired, hlp]
    · unfold paired
      split
      · exact Or.inl ⟨by simp, hlp⟩
      · rw [if_pos rfl]
        exact Or.inr ⟨by simp, hx hs⟩
  | @double pre v x s a c p hs ha hc hv hs' hp =>
    have hlp : ∀ d src, f'.live? p ≠ some (.store d src) := by simp [hp]
    simp only [List.forall_mem_cons, List.not_mem_nil, false_implies, implies_true, and_true]
    refine ⟨Or.inl ⟨_, _, hs⟩, Or.inr (Or.inl ?_), Or.inr ?_⟩
    · simp [paired, hlp]
    · unfold paired
      split
      · exact Or.inl ⟨by simp, hlp⟩
      · rw [if_pos rfl]
        exact Or.inr ⟨by simp, hx hs⟩

section Window

variable (hf : Sound f) (hw : WellFormed f) (hr : f.Reaches b)
  (h : Window f f' b pre mid mid' post σ) (hs : Shape f f' v pre mid mid' σ)
include h

lemma Window.listing_of_ne {c : BlockId} (hc : c ≠ b) : f'.listing? c = f.listing? c := by
  rw [h.after, Function.update_of_ne hc]

lemma Window.listing_self : f'.listing? b = some (pre ++ (mid' ++ post)) := by
  rw [h.after, Function.update_self]

include hf in
lemma Window.disjoint {i : Id} (hi : i ∈ pre ∨ i ∈ post) : i ∉ mid ∧ i ∉ mid' := by
  have hnd := hf.nodup h.before
  have hnd' := h.sound.nodup h.listing_self
  simp only [List.nodup_append, List.mem_append] at hnd hnd'
  grind

include hf in
lemma Window.other {c : BlockId} {l : List Id} (hc : c ≠ b) (hl : f.listing? c = some l) {i : Id}
    (hi : i ∈ l) : i ∉ mid ∧ i ∉ mid' := by
  refine ⟨fun hm => hc ?_, fun hm => hc ?_⟩
  · exact hf.block_unique hl hi h.before (by simp [hm])
  · exact h.sound.block_unique ((h.listing_of_ne hc).trans hl) hi h.listing_self (by simp [hm])

include hf in
lemma Window.var {d : Id} (hd : (f.varOf? d).isSome) : d ∉ mid ∧ d ∉ mid' := by
  refine ⟨fun hm => ?_, fun hm => ?_⟩
  · exact hf.var_ne h.before (i := d) (by simp [hm]) hd rfl
  · exact h.sound.var_ne h.listing_self (i := d) (by simp [hm]) (by rwa [h.vars]) rfl

lemma Window.live_map {i : Id} (hi : i ∉ mid ∧ i ∉ mid') :
    f'.live? i = (f.live? i).map (·.rename σ) := h.outside i hi.1 hi.2

lemma Window.live_cases {u : Id} {x' : Payload} (hu : f'.live? u = some x') :
    u ∈ mid' ∨ (u ∉ mid ∧ u ∉ mid' ∧ ∃ x, f.live? u = some x ∧ x' = x.rename σ) := by
  by_cases hm' : u ∈ mid'
  · exact Or.inl hm'
  · by_cases hm : u ∈ mid
    · simp [h.erased u hm hm'] at hu
    · rw [h.outside u hm hm'] at hu
      obtain ⟨x, hx, rfl⟩ := Option.map_eq_some_iff.mp hu
      exact Or.inr ⟨hm, hm', x, hx, rfl⟩

include hw hr hs in
lemma Window.post_ne_nil : post ≠ [] := by
  rintro rfl
  obtain ⟨l, hl, hc⟩ := hw.closes hr
  obtain rfl : l = pre ++ mid := by
    rw [h.before, List.append_nil] at hl
    exact (Option.some.inj hl).symm
  obtain ⟨hne, hplain⟩ := hs.plain
  rw [closes_append hne] at hc
  obtain ⟨t, x, ht, hx, hterm⟩ := hc.2.mem_getLast
  obtain ⟨y, hy, hyt⟩ := hplain t (List.mem_of_getLast? ht)
  obtain rfl : x = y := Option.some.inj (hx.symm.trans hy)
  simp [hterm] at hyt

include hf hw hr hs in
lemma Window.leads_iff {c d : BlockId} : f'.Leads c d ↔ f.Leads c d := by
  have hpost := h.post_ne_nil hw hr hs
  have hlast : ∀ l : List Id, (l ++ post).getLast? = post.getLast? := by
    intro l
    rw [List.getLast?_append_of_ne_nil l hpost]
  have key : ∀ {t : Id} {x : Payload}, (t ∉ mid ∧ t ∉ mid') → f.live? t = some x →
      f'.live? t = some (x.rename σ) := by
    intro t x ht hx
    rw [h.live_map ht, hx]
    rfl
  by_cases hcb : c = b
  · subst hcb
    have hmem : ∀ {t : Id}, post.getLast? = some t → t ∉ mid ∧ t ∉ mid' :=
      fun ht => h.disjoint hf (Or.inr (List.mem_of_getLast? ht))
    constructor
    · rintro ⟨l, t, x, hl, ht, hx, hd⟩
      obtain rfl := Option.some.inj (h.listing_self.symm.trans hl)
      rw [← List.append_assoc, hlast] at ht
      obtain ⟨-, -, y, hy, rfl⟩ := (h.live_cases hx).resolve_left (hmem ht).2
      rw [targets_rename] at hd
      exact ⟨_, t, y, h.before, by rw [← List.append_assoc, hlast, ht], hy, hd⟩
    · rintro ⟨l, t, x, hl, ht, hx, hd⟩
      obtain rfl := Option.some.inj (h.before.symm.trans hl)
      rw [← List.append_assoc, hlast] at ht
      refine ⟨_, t, _, h.listing_self, by rw [← List.append_assoc, hlast, ht], key (hmem ht) hx, ?_⟩
      rwa [targets_rename]
  · constructor
    · rintro ⟨l, t, x, hl, ht, hx, hd⟩
      rw [h.listing_of_ne hcb] at hl
      have ht' := h.other hf hcb hl (List.mem_of_getLast? ht)
      obtain ⟨-, -, y, hy, rfl⟩ := (h.live_cases hx).resolve_left ht'.2
      rw [targets_rename] at hd
      exact ⟨l, t, y, hl, ht, hy, hd⟩
    · rintro ⟨l, t, x, hl, ht, hx, hd⟩
      have ht' := h.other hf hcb hl (List.mem_of_getLast? ht)
      refine ⟨l, t, _, by rw [h.listing_of_ne hcb, hl], ht, key ht' hx, ?_⟩
      rwa [targets_rename]

include hf hw hr hs in
lemma Window.reaches_iff {c : BlockId} : f'.Reaches c ↔ f.Reaches c := by
  have hleads : f'.Leads = f.Leads := by
    funext c d
    exact propext (h.leads_iff hf hw hr hs)
  have hentry : f'.entry = f.entry := by
    obtain ⟨slots, blocks, rfl⟩ := h.frame
    rfl
  unfold Reaches
  rw [hleads, hentry]

include hs in
lemma Window.live_of_not_mem {d : Id} (hd : (f.live? d).isSome) (hm : d ∉ mid) :
    (f'.live? d).isSome := by
  by_cases hm' : d ∈ mid'
  · obtain ⟨x, hx, -⟩ := hs.supplied d hm'
    rw [hx]
    rfl
  · rw [h.outside d hm hm', Option.isSome_map]
    exact hd

include hf in
lemma Window.live_of_mem_pre {d : Id} (hd : d ∈ pre) : (f'.live? d).isSome := by
  obtain ⟨x, hx, -⟩ := hf.live_of_mem h.before (i := d) (by simp [hd])
  rw [h.live_map (h.disjoint hf (Or.inl hd)), hx]
  rfl

include hf hw hs in
lemma Window.operand (hst : Storeless f) {u : Id} {x : Payload} (hx : f.live? u = some x) {d : Id}
    (hd : d ∈ x.operands) :
    (f'.live? (σ d)).isSome ∧ (d ∈ mid → σ d ∈ pre ∨ σ d ∈ mid') ∧
      ∀ e src, f'.live? (σ d) ≠ some (.store e src) := by
  have hlive := hw.operands hx d hd
  have hnot : ∀ {e : Id} {y : Payload}, e ∉ mid → (∃ u y, f.live? u = some y ∧ e ∈ y.operands) →
      f'.live? e = some y → e ∉ mid' → ∀ a src, y ≠ .store a src := by
    rintro e y hem ⟨u, z, hz, he⟩ hy hem' a src rfl
    rw [h.outside e hem hem'] at hy
    obtain ⟨w, hw, hren⟩ := Option.map_eq_some_iff.mp hy
    cases w <;> simp [Payload.rename, Payload.operands, Payload.withOperands] at hren
    exact hst hz e he _ _ hw
  by_cases hm : d ∈ mid
  · rcases hs.into d hm with ⟨e, src, hstore⟩ | ⟨hmem, hns⟩ | ⟨hmem, hused⟩
    · exact absurd hstore (hst hx d hd e src)
    · obtain ⟨y, hy, -⟩ := hs.supplied _ hmem
      exact ⟨by rw [hy]; rfl, fun _ => Or.inr hmem, hns⟩
    · have hdis := h.disjoint hf (Or.inl hmem)
      refine ⟨h.live_of_mem_pre hf hmem, fun _ => Or.inl hmem, fun e src he => ?_⟩
      exact hnot hdis.1 hused he hdis.2 e src rfl
  · rw [h.fixed d hm]
    refine ⟨h.live_of_not_mem hs hlive hm, fun h => absurd h hm, fun e src he => ?_⟩
    by_cases hm' : d ∈ mid'
    · rcases h.fresh d hm' with hmem | hnone
      · exact hm hmem
      · have := hf.operands hx d hd
        simp [hnone] at this
    · exact hnot hm ⟨u, x, hx, hd⟩ he hm' e src rfl

include hf hw hr hs in
lemma Window.closes {c : BlockId} (hc : f.Reaches c) :
    ∃ l, f'.listing? c = some l ∧ f'.Closes l := by
  obtain ⟨l, hl, hcl⟩ := hw.closes hc
  have hcongr : ∀ {m : List Id}, f.Closes m → (∀ i ∈ m, i ∉ mid ∧ i ∉ mid') → f'.Closes m := by
    intro m hm hdis
    refine hm.congr fun i hi x hx => ⟨x.rename σ, ?_, isTerminal_rename x⟩
    rw [h.live_map (hdis i hi), hx]
    rfl
  by_cases hcb : c = b
  · subst hcb
    have hpost := h.post_ne_nil hw hr hs
    obtain rfl := Option.some.inj (h.before.symm.trans hl)
    rw [← List.append_assoc, closes_append hpost] at hcl
    refine ⟨_, h.listing_self, ?_⟩
    rw [← List.append_assoc, closes_append hpost]
    refine ⟨fun i hi => ?_, hcongr hcl.2 fun i hi => h.disjoint hf (Or.inr hi)⟩
    rcases List.mem_append.mp hi with hi | hi
    · obtain ⟨x, hx, hterm⟩ := hcl.1 i (by simp [hi])
      refine ⟨x.rename σ, ?_, by rw [isTerminal_rename, hterm]⟩
      rw [h.live_map (h.disjoint hf (Or.inl hi)), hx]
      rfl
    · obtain ⟨x, hx, hterm, -⟩ := hs.supplied i hi
      exact ⟨x, hx, hterm⟩
  · exact ⟨l, by rw [h.listing_of_ne hcb, hl],
      hcongr hcl fun i hi => h.other hf hcb hl hi⟩

include hf hw hr hs in
lemma Window.ordered (hst : Storeless f) {c : BlockId} {l₁ l₂ : List Id} {u : Id} {x : Payload}
    (hc : f.Reaches c) (hl : f'.listing? c = some (l₁ ++ u :: l₂)) (hx : f'.live? u = some x) :
    ∀ d ∈ x.operands, (f'.varOf? d).isSome ∨ d ∈ l₁ := by
  intro d hd
  rw [h.vars]
  by_cases hcb : c = b
  · subst hcb
    have heq : l₁ ++ u :: l₂ = pre ++ (mid' ++ post) :=
      Option.some.inj (hl.symm.trans h.listing_self)
    have hnot := h.sound.not_mem_pre hl
    have hplace : ∀ {A B : List Id}, pre ++ (mid' ++ post) = A ++ u :: B → l₁ = A := by
      intro A B hAB
      rw [← heq] at hAB
      exact ((List.append_cons_inj_of_notMem hnot.1 hnot.2).mp hAB).1
    have hu : u ∈ pre ++ (mid' ++ post) := by simp [← heq]
    rcases h.live_cases hx with hmem | ⟨hm, hm', y, hy, rfl⟩
    · obtain ⟨A, B, hAB⟩ := List.append_of_mem hmem
      obtain rfl := hplace (A := pre ++ A) (B := B ++ post) (by simp [hAB])
      obtain ⟨z, hz, -, hops⟩ := hs.supplied u hmem
      obtain rfl : x = z := Option.some.inj (hx.symm.trans hz)
      exact (hops d hd).1.imp_right fun h => by simp [h]
    · rw [Payload.operands_rename] at hd
      obtain ⟨e, he, rfl⟩ := List.mem_map.mp hd
      rcases List.mem_append.mp hu with hup | hup
      · obtain ⟨A, B, hAB⟩ := List.append_of_mem hup
        obtain rfl := hplace (A := A) (B := B ++ (mid' ++ post)) (by simp [hAB])
        have hbefore : f.listing? c = some (l₁ ++ u :: (B ++ (mid ++ post))) := by
          rw [h.before, hAB]
          simp
        have hord := hw.ordered hc hbefore hy e he
        have hem : e ∉ mid := by
          rcases hord with hv | hl₁
          · exact (h.var hf hv).1
          · exact (h.disjoint hf (Or.inl (by simp [hAB, hl₁]))).1
        rw [h.fixed e hem]
        exact hord
      · have hup := (List.mem_append.mp hup).resolve_left hm'
        obtain ⟨A, B, hAB⟩ := List.append_of_mem hup
        obtain rfl := hplace (A := pre ++ (mid' ++ A)) (B := B) (by simp [hAB])
        have hbefore : f.listing? c = some ((pre ++ (mid ++ A)) ++ u :: B) := by
          rw [h.before, hAB]
          simp
        by_cases hem : e ∈ mid
        · rcases (h.operand hf hw hs hst hy he).2.1 hem with hin | hin <;> simp [hin]
        · rw [h.fixed e hem]
          rcases hw.ordered hc hbefore hy e he with hv | hin
          · exact Or.inl hv
          · right
            simp only [List.mem_append] at hin ⊢
            tauto
  · rw [h.listing_of_ne hcb] at hl
    have hother := h.other hf hcb hl (i := u) (by simp)
    obtain ⟨-, -, y, hy, rfl⟩ := (h.live_cases hx).resolve_left hother.2
    rw [Payload.operands_rename] at hd
    obtain ⟨e, he, rfl⟩ := List.mem_map.mp hd
    have hord := hw.ordered hc hl hy e he
    have hem : e ∉ mid := by
      rcases hord with hv | hl₁
      · exact (h.var hf hv).1
      · exact (h.other hf hcb hl (by simp [hl₁])).1
    rw [h.fixed e hem]
    exact hord

include hf hw hr hs in
/-- Rewriting keeps a function well formed, and makes no store an operand. -/
theorem Window.wellFormed (hst : Storeless f) : WellFormed f' ∧ Storeless f' := by
  have hnew : ∀ {u : Id} {x : Payload}, u ∈ mid' → f'.live? u = some x → ∀ d ∈ x.operands,
      (f'.live? d).isSome ∧ ∀ e src, f'.live? d ≠ some (.store e src) := by
    intro u x hu hx d hd
    obtain ⟨z, hz, -, hops⟩ := hs.supplied u hu
    obtain rfl : x = z := Option.some.inj (hx.symm.trans hz)
    obtain ⟨hplace, w, y, hy, hdy⟩ := hops d hd
    have hdm : d ∉ mid := by
      rcases hplace with hv | hp
      · exact (h.var hf hv).1
      · exact (h.disjoint hf (Or.inl hp)).1
    have := h.operand hf hw hs hst hy hdy
    rw [h.fixed d hdm] at this
    exact ⟨this.1, this.2.2⟩
  refine ⟨⟨?_, ?_, ?_⟩, ?_⟩
  · intro c hc
    exact h.closes hf hw hr hs ((h.reaches_iff hf hw hr hs).mp hc)
  · intro u x hx d hd
    rcases h.live_cases hx with hu | ⟨-, -, y, hy, rfl⟩
    · exact (hnew hu hx d hd).1
    · rw [Payload.operands_rename] at hd
      obtain ⟨e, he, rfl⟩ := List.mem_map.mp hd
      exact (h.operand hf hw hs hst hy he).1
  · intro c l₁ u l₂ x hc hl hx
    exact h.ordered hf hw hr hs hst ((h.reaches_iff hf hw hr hs).mp hc) hl hx
  · intro u x hx d hd e src
    rcases h.live_cases hx with hu | ⟨-, -, y, hy, rfl⟩
    · exact (hnew hu hx d hd).2 e src
    · rw [Payload.operands_rename] at hd
      obtain ⟨g, hg, rfl⟩ := List.mem_map.mp hd
      exact (h.operand hf hw hs hst hy hg).2.2 e src

end Window

end Accumulator.Flow.Func
