import Mathlib
import Accumulator.Proofs.Arena

/-!
# Sound functions

`Sound` says that the lists of users and the places of instructions agree with operands and code.
Each edit of a sound function is described through the views of the arena, and gives a sound
function again.
-/

namespace Accumulator.Flow.Func

/-- Users are listed once per operand, and an instruction stands in the one block that its slot
names, once. -/
structure Sound (f : Func) : Prop where
  refs : ∀ {d s}, f.at? d = some s → ∀ u, s.refs.count u = f.uses u d
  operands : ∀ {u x}, f.live? u = some x → ∀ d ∈ x.operands, (f.at? d).isSome
  placed : ∀ {i s}, f.at? i = some s → s.block ≠ noBlock → ∃ l, f.listing? s.block = some l ∧ i ∈ l
  nodup : ∀ {b l}, f.listing? b = some l → l.Nodup
  code : ∀ {b l}, f.listing? b = some l → ∀ i ∈ l,
    ∃ s, f.at? i = some s ∧ s.block = b ∧ s.dead = false ∧ ∀ v, s.payload ≠ .var v

variable {f f' : Func} {s : Slot}

lemma uses_of_live {u d : Id} {x : Payload} (h : f.live? u = some x) :
    f.uses u d = x.operands.count d := by
  simp [uses, h]

lemma uses_of_none {u d : Id} (h : f.live? u = none) : f.uses u d = 0 := by
  simp [uses, h]

lemma uses_congr {u : Id} (h : f'.live? u = f.live? u) (d : Id) : f'.uses u d = f.uses u d := by
  simp [uses, h]

lemma live?_of_at? {i : Id} (h : f.at? i = some s) :
    f.live? i = if s.dead then none else some s.payload := by
  simp [live?, h]

lemma at?_isSome_of_live {i : Id} {x : Payload} (h : f.live? i = some x) : (f.at? i).isSome := by
  obtain ⟨s, hs, -, -⟩ := live?_eq_some.mp h
  simp [hs]

lemma at?_size_eq_none (f : Func) : f.at? (f.slots.size : Int) = none := by
  have : ¬ (f.at? (f.slots.size : Int)).isSome := by
    rw [at?_isSome]
    omega
  simpa using this

namespace Sound

lemma mem_refs_iff (hf : Sound f) {d u : Id} (h : f.at? d = some s) :
    u ∈ s.refs ↔ ∃ x, f.live? u = some x ∧ d ∈ x.operands := by
  rw [← List.count_pos_iff, hf.refs h]
  cases hu : f.live? u with
  | none => simp [uses_of_none hu]
  | some x => simp [uses_of_live hu, List.count_pos_iff]

lemma refs_eq_nil (hf : Sound f) {d : Id} (h : f.at? d = some s)
    (hu : ∀ u x, f.live? u = some x → d ∉ x.operands) : s.refs = [] := by
  refine List.eq_nil_iff_forall_not_mem.mpr fun u hmem => ?_
  obtain ⟨x, hx, hd⟩ := (hf.mem_refs_iff h).mp hmem
  exact hu u x hx hd

lemma block_of_mem (hf : Sound f) {b : BlockId} {l : List Id} {i : Id}
    (hl : f.listing? b = some l) (hi : i ∈ l) (h : f.at? i = some s) :
    s.block = b ∧ s.dead = false ∧ ∀ v, s.payload ≠ .var v := by
  obtain ⟨t, ht, hb⟩ := hf.code hl i hi
  obtain rfl : t = s := Option.some.inj (ht.symm.trans h)
  exact hb

lemma live_of_mem (hf : Sound f) {b : BlockId} {l : List Id} {i : Id}
    (hl : f.listing? b = some l) (hi : i ∈ l) : ∃ x, f.live? i = some x ∧ ∀ v, x ≠ .var v := by
  obtain ⟨s, hs, -, hd, hv⟩ := hf.code hl i hi
  exact ⟨s.payload, live?_eq_some.mpr ⟨s, hs, hd, rfl⟩, hv⟩

lemma block_unique (hf : Sound f) {b c : BlockId} {l m : List Id} {i : Id}
    (hl : f.listing? b = some l) (hi : i ∈ l) (hm : f.listing? c = some m) (hj : i ∈ m) : b = c := by
  obtain ⟨s, hs, hb, -⟩ := hf.code hl i hi
  exact hb.symm.trans (hf.block_of_mem hm hj hs).1

end Sound

lemma Sound.empty (f : Func) (hs : f.slots = #[]) (hb : f.blocks = #[]) : Sound f := by
  have hat : ∀ i, f.at? i = none := by
    intro i
    rw [at?_eq, hs]
    split <;> simp
  have hlist : ∀ b, f.listing? b = none := by
    intro b
    rw [listing?_eq, hb]
    split <;> simp
  constructor
  · intro d s h; simp [hat] at h
  · intro u x h; simp [live?, hat] at h
  · intro i s h; simp [hat] at h
  · intro b l h; simp [hlist] at h
  · intro b l h; simp [hlist] at h

lemma listing?_newBlock (f : Func) (b : Int) :
    f.newBlock.2.listing? b = if b = f.blocks.size then some [] else f.listing? b := by
  rw [listing?_eq, listing?_eq]
  simp only [newBlock, Array.getElem?_push]
  by_cases hb : 0 ≤ b
  · by_cases h : b = f.blocks.size
    · subst h; simp
    · have : b.toNat ≠ f.blocks.size := by omega
      simp [hb, h, this]
  · have : b ≠ f.blocks.size := by omega
    simp [hb, this]

lemma Sound.newBlock (hf : Sound f) : Sound f.newBlock.2 := by
  have hat : ∀ i, f.newBlock.2.at? i = f.at? i := fun _ => rfl
  have hlive : ∀ i, f.newBlock.2.live? i = f.live? i := fun _ => rfl
  refine ⟨hf.refs, hf.operands, ?_, ?_, ?_⟩
  · intro i s hi hb
    obtain ⟨l, hl, hmem⟩ := hf.placed hi hb
    refine ⟨l, ?_, hmem⟩
    rw [listing?_newBlock, if_neg, hl]
    intro h
    rw [h, listing?_eq] at hl
    simp at hl
  · intro b l hl
    rw [listing?_newBlock] at hl
    split at hl
    · obtain rfl := Option.some.inj hl
      exact List.nodup_nil
    · exact hf.nodup hl
  · intro b l hl i hi
    rw [listing?_newBlock] at hl
    split at hl
    · obtain rfl := Option.some.inj hl
      simp at hi
    · exact hf.code hl i hi

lemma addRef_eq_ok {item user : Id} :
    f.addRef item user = .ok f' ↔
      (f.at? item).isSome ∧ f' = f.amend item fun s => { s with refs := s.refs ++ [user] } :=
  updateSlot_eq_ok

lemma addRefs_spec {ops : List Id} {user : Id}
    (h : ops.foldlM (fun f op => f.addRef op user) f = .ok f') :
    (∃ slots, f' = { f with slots := slots }) ∧ f'.slots.size = f.slots.size ∧
      (∀ op ∈ ops, (f.at? op).isSome) ∧
      ∀ j, f'.at? j = (f.at? j).map fun s =>
        { s with refs := s.refs ++ List.replicate (ops.count j) user } := by
  induction ops generalizing f with
  | nil =>
    obtain rfl : f = f' := by simpa using h
    exact ⟨⟨f.slots, rfl⟩, rfl, by simp, fun j => by simp⟩
  | cons op ops ih =>
    rw [List.foldlM_cons, bind_eq_ok] at h
    obtain ⟨f₁, h₁, h⟩ := h
    obtain ⟨hop, rfl⟩ := addRef_eq_ok.mp h₁
    obtain ⟨⟨slots, rfl⟩, hsize, hops, hat⟩ := ih h
    have hnn := (at?_isSome.mp hop).1
    refine ⟨⟨slots, rfl⟩, by simpa [amend] using hsize, ?_, ?_⟩
    · intro o ho
      rcases List.mem_cons.mp ho with rfl | ho
      · exact hop
      · have := hops o ho
        rw [at?_amend hnn] at this
        split at this <;> simpa using this
    · intro j
      rw [hat j, at?_amend hnn]
      by_cases hj : j = op
      · subst hj
        cases f.at? j <;> simp [List.replicate_succ]
      · have : (op == j) = false := by simpa using fun h => hj h.symm
        simp [hj, List.count_cons, this]

lemma addRefs_ok {ops : List Id} (user : Id) (h : ∀ op ∈ ops, (f.at? op).isSome) :
    ∃ f', ops.foldlM (fun f op => f.addRef op user) f = .ok f' := by
  induction ops generalizing f with
  | nil => exact ⟨f, rfl⟩
  | cons op ops ih =>
    have hop := h op (by simp)
    have hnn := (at?_isSome.mp hop).1
    rw [List.foldlM_cons, addRef_eq_ok.mpr ⟨hop, rfl⟩, ok_bind]
    refine ih fun o ho => ?_
    rw [at?_amend hnn]
    split <;> simpa using h o (by simp [ho])

/-- The function with a slot added. -/
def push (f : Func) (s : Slot) : Func := { f with slots := f.slots.push s }

lemma at?_push (s : Slot) (j : Int) :
    (f.push s).at? j = if j = f.slots.size then some s else f.at? j := by
  rw [at?_eq, at?_eq]
  simp only [push, Array.getElem?_push]
  by_cases hj : 0 ≤ j
  · by_cases h : j = f.slots.size
    · subst h; simp
    · have : j.toNat ≠ f.slots.size := by omega
      simp [hj, h, this]
  · have : j ≠ f.slots.size := by omega
    simp [hj, this]

/-- Two functions that differ in slots and blocks only. -/
def SameFrame (f f' : Func) : Prop :=
  ∃ slots blocks, f' = { f with slots := slots, blocks := blocks }

lemma SameFrame.refl (f : Func) : SameFrame f f := ⟨f.slots, f.blocks, rfl⟩

lemma SameFrame.trans {f'' : Func} (h : SameFrame f f') (h' : SameFrame f' f'') :
    SameFrame f f'' := by
  obtain ⟨s, b, rfl⟩ := h
  obtain ⟨s', b', rfl⟩ := h'
  exact ⟨s', b', rfl⟩

lemma new_spec {loc : Position} {x : Payload} {i : Id} (h : f.new loc x = .ok (i, f')) :
    i = f.slots.size ∧ (∃ slots, f' = { f with slots := slots }) ∧
      f'.slots.size = f.slots.size + 1 ∧
      (∀ op ∈ x.operands, op = f.slots.size ∨ (f.at? op).isSome) ∧
      ∀ j, f'.at? j =
        if j = f.slots.size then
          some { payload := x, loc := loc,
                 refs := List.replicate (x.operands.count (f.slots.size : Int)) (f.slots.size : Int) }
        else (f.at? j).map fun s =>
          { s with refs := s.refs ++ List.replicate (x.operands.count j) (f.slots.size : Int) } := by
  unfold new at h
  simp only [bind_eq_ok, pure_eq_ok, Except.ok.injEq, Prod.mk.injEq] at h
  obtain ⟨f₁, h₁, rfl, rfl⟩ := h
  change x.operands.foldlM (fun (g : Func) op => g.addRef op (f.slots.size : Int))
    (f.push { payload := x, loc := loc }) = .ok f₁ at h₁
  obtain ⟨⟨slots, rfl⟩, hsize, hops, hat⟩ := addRefs_spec h₁
  refine ⟨rfl, ⟨slots, rfl⟩, by simpa [push] using hsize, ?_, ?_⟩
  · intro op hop
    have := hops op hop
    rw [at?_push] at this
    by_cases h : op = f.slots.size
    · exact Or.inl h
    · exact Or.inr (by simpa [h] using this)
  · intro j
    rw [hat j, at?_push]
    by_cases hj : j = f.slots.size <;> simp [hj]

lemma new_ok (loc : Position) {x : Payload} (h : ∀ op ∈ x.operands, (f.at? op).isSome) :
    ∃ i f', f.new loc x = .ok (i, f') := by
  have hops : ∀ op ∈ x.operands, ((f.push { payload := x, loc := loc }).at? op).isSome := by
    intro op hop
    rw [at?_push]
    split
    · rfl
    · exact h op hop
  obtain ⟨f', hf'⟩ := addRefs_ok (f.slots.size : Int) hops
  refine ⟨f.slots.size, f', ?_⟩
  unfold new
  change (do
    let g ← x.operands.foldlM (fun (g : Func) op => g.addRef op (f.slots.size : Int))
      (f.push { payload := x, loc := loc })
    return ((f.slots.size : Int), g)) = _
  rw [hf']
  rfl

lemma live?_of_map {g : Slot → Slot} {j : Id} (h : f'.at? j = (f.at? j).map g)
    (hp : ∀ s, (g s).payload = s.payload) (hd : ∀ s, (g s).dead = s.dead) :
    f'.live? j = f.live? j := by
  unfold live?
  rw [h]
  cases f.at? j <;> simp [hp, hd]

lemma uses_update {x : Payload} {i : Id}
    (hlive : ∀ j, f'.live? j = if j = i then some x else f.live? j) (u d : Id) :
    f'.uses u d = if u = i then x.operands.count d else f.uses u d := by
  by_cases h : u = i
  · rw [if_pos h, uses_of_live (by rw [hlive u, if_pos h])]
  · rw [if_neg h]
    exact uses_congr (by rw [hlive u, if_neg h]) d

lemma Sound.uses_eq_zero (hf : Sound f) {u d : Id} (h : f.at? d = none) : f.uses u d = 0 := by
  cases hu : f.live? u with
  | none => exact uses_of_none hu
  | some x =>
    rw [uses_of_live hu, List.count_eq_zero]
    intro hd
    have := hf.operands hu d hd
    simp [h] at this

lemma Sound.new (hf : Sound f) {loc : Position} {x : Payload} {i : Id}
    (h : f.new loc x = .ok (i, f')) :
    Sound f' ∧ ∀ j, f'.live? j = if j = f.slots.size then some x else f.live? j := by
  obtain ⟨rfl, ⟨slots, hslots⟩, -, hops, hat⟩ := new_spec h
  have hlist : ∀ b, f'.listing? b = f.listing? b := fun b => by rw [hslots]; rfl
  have hlive : ∀ j, f'.live? j = if j = f.slots.size then some x else f.live? j := by
    intro j
    by_cases hj : j = f.slots.size
    · rw [if_pos hj, live?_eq_some]
      exact ⟨_, by rw [hat j, if_pos hj], rfl, rfl⟩
    · have hj' := hat j
      rw [if_neg hj] at hj' ⊢
      exact live?_of_map hj' (fun _ => rfl) (fun _ => rfl)
  have hnone := at?_size_eq_none f
  have huses := uses_update hlive
  refine ⟨⟨?_, ?_, ?_, ?_, ?_⟩, hlive⟩
  · intro d s hs u
    rw [huses]
    rw [hat d] at hs
    by_cases hd : d = f.slots.size
    · simp only [hd, if_true, Option.some.injEq] at hs
      subst hs
      rw [List.count_replicate]
      by_cases hu : u = f.slots.size
      · simp [hu, hd]
      · have : ((f.slots.size : Int) == u) = false := by simpa using fun h => hu h.symm
        simp [hu, this, hd, hf.uses_eq_zero hnone]
    · simp only [hd, if_false, Option.map_eq_some_iff] at hs
      obtain ⟨t, ht, rfl⟩ := hs
      rw [List.count_append, hf.refs ht, List.count_replicate]
      by_cases hu : u = f.slots.size
      · have : f.live? u = none := by simp [live?, hu, hnone]
        simp [hu, uses_of_none (hu ▸ this)]
      · have : ((f.slots.size : Int) == u) = false := by simpa using fun h => hu h.symm
        simp [hu, this]
  · intro u y hy d hd
    rw [hlive u] at hy
    rw [hat d]
    split
    · rfl
    · rename_i hne
      simp only [Option.isSome_map]
      split at hy
      · obtain rfl := Option.some.inj hy
        exact (hops d hd).resolve_left hne
      · exact hf.operands hy d hd
  · intro j s hs hb
    rw [hat j] at hs
    split at hs
    · obtain rfl := Option.some.inj hs
      exact absurd rfl hb
    · obtain ⟨t, ht, rfl⟩ := Option.map_eq_some_iff.mp hs
      obtain ⟨l, hl, hmem⟩ := hf.placed ht hb
      exact ⟨l, by rw [hlist, hl], hmem⟩
  · intro b l hl
    rw [hlist] at hl
    exact hf.nodup hl
  · intro b l hl j hj
    rw [hlist] at hl
    obtain ⟨t, ht, hb, hdead, hv⟩ := hf.code hl j hj
    have hne : j ≠ f.slots.size := by
      rintro rfl
      simp [hnone] at ht
    have hj' := hat j
    rw [if_neg hne, ht, Option.map_some] at hj'
    exact ⟨_, hj', hb, hdead, hv⟩

lemma Sound.congr (hf : Sound f) (hat : ∀ j, f'.at? j = f.at? j)
    (hlist : ∀ b, f'.listing? b = f.listing? b) : Sound f' := by
  have hlive : ∀ j, f'.live? j = f.live? j := fun j => by simp [live?, hat]
  refine ⟨?_, ?_, ?_, ?_, ?_⟩
  · intro d s h u
    rw [uses_congr (hlive u) d]
    exact hf.refs (hat d ▸ h) u
  · intro u x h d hd
    rw [hat]
    exact hf.operands (hlive u ▸ h) d hd
  · intro i s h hne
    rw [hlist]
    exact hf.placed (hat i ▸ h) hne
  · intro b l h
    exact hf.nodup (hlist b ▸ h)
  · intro b l h i hi
    rw [hat]
    exact hf.code (hlist b ▸ h) i hi

lemma newVar_slots (f : Func) (loc : Position) (v : Variable) :
    (f.newVar loc v).2.slots = f.slots.push { payload := .var v, loc := loc } ∧
      (f.newVar loc v).2.blocks = f.blocks := by
  unfold newVar
  cases v.kind <;> exact ⟨rfl, rfl⟩

lemma at?_newVar (f : Func) (loc : Position) (v : Variable) (j : Id) :
    (f.newVar loc v).2.at? j =
      if j = f.slots.size then some { payload := .var v, loc := loc } else f.at? j := by
  rw [← at?_push, at?_eq, at?_eq, (newVar_slots f loc v).1]
  rfl

lemma Sound.newVar (hf : Sound f) (loc : Position) (v : Variable) :
    Sound (f.newVar loc v).2 := by
  have h : f.new loc (.var v) = .ok ((f.slots.size : Int), f.push { payload := .var v, loc := loc }) :=
    rfl
  refine (hf.new h).1.congr (fun j => ?_) fun b => ?_
  · simp only [at?_eq, (newVar_slots f loc v).1, push]
  · simp only [listing?_eq, (newVar_slots f loc v).2, push]

lemma Sound.place (hf : Sound f) {b : BlockId} {i : Id} {l l' : List Id}
    (hs : f.at? i = some s) (hfree : s.block = noBlock) (hd : s.dead = false)
    (hv : ∀ v, s.payload ≠ .var v) (hl : f.listing? b = some l) (hp : l'.Perm (i :: l))
    (hat : ∀ j, f'.at? j = if j = i then some { s with block := b } else f.at? j)
    (hlist : ∀ c, f'.listing? c = if c = b then some l' else f.listing? c) :
    Sound f' ∧ ∀ j, f'.live? j = f.live? j := by
  have hlive : ∀ j, f'.live? j = f.live? j := by
    intro j
    by_cases hj : j = i
    · subst hj
      simp [live?, hat, hs]
    · simp [live?, hat, hj]
  have hout : ∀ {c m}, f.listing? c = some m → i ∉ m := by
    intro c m hm hmem
    have hc := (hf.block_of_mem hm hmem hs).1
    rw [hfree] at hc
    subst hc
    rw [listing?_eq] at hm
    simp [noBlock] at hm
  refine ⟨⟨?_, ?_, ?_, ?_, ?_⟩, hlive⟩
  · intro d t ht u
    rw [uses_congr (hlive u) d]
    rw [hat d] at ht
    split at ht
    · rename_i hdi
      obtain rfl := Option.some.inj ht
      subst hdi
      exact hf.refs hs u
    · exact hf.refs ht u
  · intro u x hx d hd'
    rw [hat d]
    split
    · rfl
    · exact hf.operands (hlive u ▸ hx) d hd'
  · intro j t ht hne
    rw [hat j] at ht
    split at ht
    · rename_i hji
      obtain rfl := Option.some.inj ht
      refine ⟨l', by simp [hlist], ?_⟩
      rw [hp.mem_iff, hji]
      simp
    · obtain ⟨m, hm, hmem⟩ := hf.placed ht hne
      by_cases hc : t.block = b
      · refine ⟨l', by simp [hlist, hc], ?_⟩
        rw [hc, hl, Option.some.injEq] at hm
        rw [hp.mem_iff, hm]
        simp [hmem]
      · exact ⟨m, by simp [hlist, hc, hm], hmem⟩
  · intro c m hm
    rw [hlist] at hm
    split at hm
    · obtain rfl := Option.some.inj hm
      rw [hp.nodup_iff, List.nodup_cons]
      exact ⟨hout hl, hf.nodup hl⟩
    · exact hf.nodup hm
  · intro c m hm j hj
    rw [hlist] at hm
    rw [hat j]
    split at hm
    · rename_i hcb
      obtain rfl := Option.some.inj hm
      rw [hp.mem_iff] at hj
      by_cases hji : j = i
      · rw [if_pos hji]
        exact ⟨_, rfl, hcb.symm, hd, hv⟩
      · rw [if_neg hji]
        have hjl : j ∈ l := (List.mem_cons.mp hj).resolve_left hji
        rw [hcb]
        exact hf.code hl j hjl
    · have hji : j ≠ i := by
        rintro rfl
        exact hout hm hj
      rw [if_neg hji]
      exact hf.code hm j hj

lemma Sound.unplace (hf : Sound f) {b : BlockId} {i : Id} {l l' : List Id}
    (hs : f.at? i = some s) (hl : f.listing? b = some l) (hp : l.Perm (i :: l'))
    (hat : ∀ j, f'.at? j = if j = i then some { s with block := noBlock } else f.at? j)
    (hlist : ∀ c, f'.listing? c = if c = b then some l' else f.listing? c) :
    Sound f' ∧ ∀ j, f'.live? j = f.live? j := by
  have hlive : ∀ j, f'.live? j = f.live? j := by
    intro j
    by_cases hj : j = i
    · subst hj
      simp [live?, hat, hs]
    · simp [live?, hat, hj]
  have hnd : i ∉ l' ∧ l'.Nodup := List.nodup_cons.mp (hp.nodup_iff.mp (hf.nodup hl))
  refine ⟨⟨?_, ?_, ?_, ?_, ?_⟩, hlive⟩
  · intro d t ht u
    rw [uses_congr (hlive u) d]
    rw [hat d] at ht
    split at ht
    · rename_i hdi
      obtain rfl := Option.some.inj ht
      subst hdi
      exact hf.refs hs u
    · exact hf.refs ht u
  · intro u x hx d hd'
    rw [hat d]
    split
    · rfl
    · exact hf.operands (hlive u ▸ hx) d hd'
  · intro j t ht hne
    rw [hat j] at ht
    split at ht
    · obtain rfl := Option.some.inj ht
      exact absurd rfl hne
    · rename_i hji
      obtain ⟨m, hm, hmem⟩ := hf.placed ht hne
      by_cases hc : t.block = b
      · refine ⟨l', by simp [hlist, hc], ?_⟩
        rw [hc, hl, Option.some.injEq] at hm
        subst hm
        exact (List.mem_cons.mp (hp.mem_iff.mp hmem)).resolve_left hji
      · exact ⟨m, by simp [hlist, hc, hm], hmem⟩
  · intro c m hm
    rw [hlist] at hm
    split at hm
    · obtain rfl := Option.some.inj hm
      exact hnd.2
    · exact hf.nodup hm
  · intro c m hm j hj
    rw [hlist] at hm
    rw [hat j]
    split at hm
    · rename_i hcb
      obtain rfl := Option.some.inj hm
      have hji : j ≠ i := by
        rintro rfl
        exact hnd.1 hj
      rw [if_neg hji, hcb]
      exact hf.code hl j (hp.mem_iff.mpr (List.mem_cons_of_mem _ hj))
    · rename_i hcb
      have hji : j ≠ i := by
        rintro rfl
        exact hcb (hf.block_unique hm hj hl (hp.mem_iff.mpr (by simp)))
      rw [if_neg hji]
      exact hf.code hm j hj

lemma place_eq_ok {b : BlockId} {i : Id} :
    f.place b i = .ok f' ↔ ∃ s, f.at? i = some s ∧ (∀ v, s.payload ≠ .var v) ∧ s.block = noBlock ∧
      s.dead = false ∧ f' = f.amend i fun s => { s with block := b } := by
  unfold place
  cases hs : f.at? i with
  | none =>
    cases h : f.slot i with
    | ok s => rw [slot_eq_ok.mp h] at hs; simp at hs
    | error e => simp
  | some s =>
    rw [slot_eq_ok.mpr hs]
    simp only [ok_bind, updateSlot_eq hs, throw_eq_error, Option.some.injEq, exists_eq_left']
    cases hp : s.payload <;> by_cases hb : s.block = noBlock <;> cases hd : s.dead <;>
      simp [hb, eq_comm]

lemma nonneg_of_listing? {b : Int} {l : List Id} (h : f.listing? b = some l) : 0 ≤ b := by
  by_contra hb
  rw [listing?_eq, if_neg hb] at h
  simp at h

lemma ne_noBlock_of_listing? {b : BlockId} {l : List Id} (h : f.listing? b = some l) :
    b ≠ noBlock := by
  rintro rfl
  exact absurd (nonneg_of_listing? h) (by simp [noBlock])

/-- The views after an instruction was put into a block whose code is then changed by `g`. -/
lemma at?_place {b : BlockId} {i : Id} (hs : f.at? i = some s) (g : Array Id → Array Id) (j : Id) :
    ((f.amend i fun s => { s with block := b }).recode b g).at? j =
      if j = i then some { s with block := b } else f.at? j := by
  rw [at?_recode, at?_amend (nonneg_of_at? hs)]
  by_cases hj : j = i
  · simp [hj, hs]
  · simp [hj]

lemma listing?_place {b : BlockId} {i : Id} {l : List Id} (hl : f.listing? b = some l)
    (h : Slot → Slot) (g : Array Id → Array Id) (c : BlockId) :
    ((f.amend i h).recode b g).listing? c =
      if c = b then some (g l.toArray).toList else f.listing? c := by
  rw [listing?_recode (nonneg_of_listing? hl), listing?_amend]
  by_cases hc : c = b
  · simp [hc, hl]
  · simp [hc]

end Accumulator.Flow.Func
