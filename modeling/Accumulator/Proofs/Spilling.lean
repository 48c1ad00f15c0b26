import Mathlib
import Accumulator.Flow.Spill
import Accumulator.Proofs.FiniteSets
import Accumulator.Proofs.Made
import Accumulator.Proofs.Operands

/-!
# Spilling one value

A value that is spilled gets a variable in the next free slot. The slots behind that hold a load for
each of its users, in the order of their first uses, and then the store. The loads stand right before
the users, the store stands right behind the value. `Spills` says this through the views of the
arena, and `Sound.spill_ok` that the spilling of a placed value succeeds and is of this kind.
-/

namespace Accumulator

namespace Flow

lemma nodup_eraseDups (l : List Id) : l.eraseDups.Nodup := by
  match l with
  | [] => simp
  | a :: l =>
    rw [List.eraseDups_cons, List.nodup_cons]
    exact ⟨by simp [List.mem_eraseDups], nodup_eraseDups _⟩
  termination_by l.length
  decreasing_by
    rw [List.length_cons]
    exact Nat.lt_succ_of_le (List.length_filter_le ..)

namespace Func

variable {f f' g : Func} {id u : Int} {b : BlockId} {n : Nat} {us l m : List Id}

/-- The load for one of the users `us` of the value whose variable is in slot `n`. -/
def fillOf (n : Nat) (us : List Id) (u : Id) : Int := n + 1 + us.idxOf u

/-- Code with a load before each of the users `us`. -/
def withFills (n : Nat) (us l : List Id) : List Id :=
  l.flatMap fun j => if j ∈ us then [fillOf n us j, j] else [j]

lemma withFills_append : withFills n us (l ++ m) = withFills n us l ++ withFills n us m :=
  List.flatMap_append

lemma withFills_cons (j : Id) :
    withFills n us (j :: l) = (if j ∈ us then [fillOf n us j, j] else [j]) ++ withFills n us l :=
  List.flatMap_cons

lemma withFills_of_disjoint (h : ∀ j ∈ l, j ∉ us) : withFills n us l = l := by
  induction l with
  | nil => rfl
  | cons j l ih =>
    rw [withFills_cons, if_neg (h j (by simp)), ih fun i hi => h i (by simp [hi])]
    rfl

lemma mem_withFills {j : Id} :
    j ∈ withFills n us l ↔ j ∈ l ∨ ∃ u ∈ l, u ∈ us ∧ j = fillOf n us u := by
  simp only [withFills, List.mem_flatMap]
  constructor
  · rintro ⟨u, hu, hj⟩
    split at hj
    · rename_i hus
      rcases List.mem_cons.mp hj with rfl | hj
      · exact Or.inr ⟨u, hu, hus, rfl⟩
      · exact Or.inl (List.mem_singleton.mp hj ▸ hu)
    · exact Or.inl (List.mem_singleton.mp hj ▸ hu)
  · rintro (hj | ⟨u, hu, hus, rfl⟩)
    · exact ⟨j, hj, by split <;> simp⟩
    · exact ⟨u, hu, by simp [hus]⟩

lemma getLast?_withFills : (withFills n us l).getLast? = l.getLast? := by
  induction l using List.reverseRecOn with
  | nil => rfl
  | append_singleton l j ih =>
    rw [withFills_append, withFills_cons]
    split <;> simp [withFills]

lemma fillOf_bounds (hu : u ∈ us) :
    (n : Int) < fillOf n us u ∧ fillOf n us u < n + 1 + us.length := by
  have := List.idxOf_lt_length_iff.mpr hu
  unfold fillOf
  omega

lemma fillOf_inj (hu : u ∈ us) {w : Id} (h : fillOf n us u = fillOf n us w) : u = w := by
  unfold fillOf at h
  exact (List.idxOf_inj hu).mp (by omega)

lemma fillOf_append (hu : u ∈ us) : fillOf n (us ++ m) u = fillOf n us u := by
  unfold fillOf
  rw [List.idxOf_append_of_mem hu]

lemma fillOf_concat (hu : u ∉ us) : fillOf n (us ++ [u]) u = n + 1 + us.length := by
  unfold fillOf
  rw [List.idxOf_append_of_notMem hu]
  simp

lemma withFills_concat (hl : u ∉ l) : withFills n (us ++ [u]) l = withFills n us l := by
  unfold withFills
  refine List.flatMap_congr fun j hj => ?_
  have hju : j ≠ u := fun h => hl (h ▸ hj)
  by_cases h : j ∈ us
  · simp [h, fillOf_append]
  · simp [h, hju]

/-- A function in the course of spilling `id`: the users `us` have their loads. -/
structure Reloaded (f g : Func) (id : Id) (us : List Id) : Prop where
  rest : ∃ slots blocks,
    g = { f with slots := slots, blocks := blocks, locals := f.locals ++ [(f.slots.size : Int)] }
  sound : Sound g
  slots : g.slots.size = f.slots.size + 1 + us.length
  blocks : g.blocks.size = f.blocks.size
  size : g.size = f.size + us.length
  vars : ∀ j : Int, g.varOf? j = if j = f.slots.size then some spillVariable else f.varOf? j
  live : ∀ j : Int, g.live? j =
    if j < f.slots.size then
      (f.live? j).map fun x =>
        if j ∈ us then x.rename (instead id (fillOf f.slots.size us j)) else x
    else if j = f.slots.size then some (.var spillVariable)
    else if j < f.slots.size + 1 + us.length then some (.load f.slots.size)
    else none
  code : ∀ c, g.listing? c = (f.listing? c).map (withFills f.slots.size us)

lemma lt_size_of_live {j : Int} {x : Payload} (h : f.live? j = some x) : j < f.slots.size :=
  (at?_isSome.mp (at?_isSome_of_live h)).2

lemma Sound.lt_size_of_mem (hf : Sound f) {c : BlockId} {j : Int} (hl : f.listing? c = some l)
    (hj : j ∈ l) : j < f.slots.size := by
  obtain ⟨x, hx, -⟩ := hf.live_of_mem hl hj
  exact lt_size_of_live hx

lemma Sound.reloaded_newVar (hf : Sound f) (loc : Position) (id : Id) :
    Reloaded f (f.newVar loc spillVariable).2 id [] := by
  have hlist : ∀ c, (f.newVar loc spillVariable).2.listing? c = f.listing? c := fun _ => rfl
  refine ⟨⟨_, _, rfl⟩, hf.newVar _ _, ?_, rfl, rfl, ?_, ?_, ?_⟩
  · simp [(newVar_slots f loc spillVariable).1]
  · intro j
    rw [varOf?_eq, varOf?_eq, at?_newVar]
    split
    · rfl
    · rfl
  · intro j
    unfold live?
    rw [at?_newVar]
    by_cases hj : j = f.slots.size
    · simp [hj]
    · by_cases hlt : j < f.slots.size
      · simp [hj, hlt]
      · have hnone : f.at? j = none := by
          have : ¬ (f.at? j).isSome := by rw [at?_isSome]; omega
          simpa using this
        have hge : ¬ j < f.slots.size + 1 := by omega
        simp [hj, hlt, hnone, hge]
  · intro c
    rw [hlist]
    cases f.listing? c with
    | none => rfl
    | some l => rw [Option.map_some, withFills_of_disjoint (by simp)]

lemma Reloaded.live_of_not_mem (h : Reloaded f g id us) {x : Payload} (hu : u ∉ us)
    (hx : f.live? u = some x) : g.live? u = some x := by
  rw [h.live, if_pos (lt_size_of_live hx), hx]
  simp [hu]

lemma reload_eq {loc : Position} {v : Id} {s : Slot} {i : Id} {g₁ g₂ g₃ : Func}
    (hs : g.at? u = some s) (hloc : s.loc = loc) (h₁ : g.new loc (.load v) = .ok (i, g₁))
    (h₂ : g₁.insertBefore u i = .ok g₂) (h₃ : g₂.replaceUse u id i = .ok g₃) :
    g.reload id v u = .ok (i, g₃) := by
  unfold reload
  rw [slot_eq_ok.mpr hs, ok_bind, hloc, h₁, ok_bind]
  simp only [h₂, h₃, ok_bind, pure_eq_ok]

lemma Reloaded.reload (h : Reloaded f g id us) (hf : Sound f) (hid : (f.at? id).isSome)
    (hu : u ∉ us) {x : Payload} (hx : f.live? u = some x) {c : BlockId}
    (hl : f.listing? c = some l) (hmem : u ∈ l) :
    ∃ g', g.reload id f.slots.size u = .ok ((f.slots.size + 1 + us.length : Nat), g') ∧
      Reloaded f g' id (us ++ [u]) := by
  obtain ⟨s, hs, -, -⟩ := live?_eq_some.mp (h.live_of_not_mem hu hx)
  obtain ⟨pre, post, rfl⟩ := List.append_of_mem hmem
  obtain ⟨hpre, hpost⟩ := hf.not_mem_pre hl
  have hv : (g.at? (f.slots.size : Int)).isSome := by
    rw [at?_isSome, h.slots]
    omega
  obtain ⟨g₁, h₁, hsize₁, hb₁⟩ := h.sound.new_becomes s.loc (x := .load f.slots.size) (by simp)
    (by simpa [Payload.operands] using hv)
  rw [h.slots] at h₁ hsize₁ hb₁
  have hcode : g₁.listing? c =
      some (withFills f.slots.size us pre ++ u :: withFills f.slots.size us post) := by
    rw [hb₁.code, h.code, hl, Option.map_some, withFills_append, withFills_cons, if_neg hu]
    rfl
  obtain ⟨g₂, h₂, hsize₂, hb₂⟩ := hb₁.sound.insertBefore_becomes
    (x := .load f.slots.size) (i := ((f.slots.size + 1 + us.length : Nat) : Int))
    (by rw [hb₁.live, Function.update_self]) (by simp)
    (by
      intro d k hk hmem
      rw [hb₁.code] at hk
      have := h.sound.lt_size_of_mem hk hmem
      rw [h.slots] at this
      omega) hcode
  have hlive₂ : g₂.live? u = some x := by
    have hne : u ≠ ((f.slots.size + 1 + us.length : Nat) : Int) := by
      have := lt_size_of_live hx
      omega
    rw [hb₂.live, hb₁.live, Function.update_of_ne hne, h.live_of_not_mem hu hx]
  have hslots : g₂.slots.size = f.slots.size + 1 + us.length + 1 := hsize₂.trans hsize₁
  have hold : (g₂.at? id).isSome := by
    obtain ⟨h0, hlt⟩ := at?_isSome.mp hid
    exact at?_isSome.mpr ⟨h0, by omega⟩
  have hnew : (g₂.at? ((f.slots.size + 1 + us.length : Nat) : Int)).isSome :=
    at?_isSome.mpr ⟨by omega, by omega⟩
  obtain ⟨g₃, h₃, hsize₃, hb₃⟩ := hb₂.sound.replaceUse_becomes hlive₂ hold (Or.inl hnew)
  refine ⟨g₃, reload_eq hs rfl h₁ h₂ h₃, ?_⟩
  have hall := (hb₁.trans hb₂).trans hb₃
  refine ⟨?_, hall.sound, ?_, ?_, ?_, ?_, ?_, ?_⟩
  · obtain ⟨slots, blocks, hg⟩ := h.rest
    obtain ⟨slots', blocks', hg'⟩ := hall.frame
    exact ⟨slots', blocks', by rw [hg', hg]⟩
  · rw [hsize₃, hslots]
    simp
    omega
  · rw [hall.blocks, h.blocks]
  · have h1 : g₁.size = g.size := size_congr hb₁.blocks hb₁.code
    have h2 := size_update hb₂.blocks hcode hb₂.code
    have h3 : g₃.size = g₂.size := size_congr hb₃.blocks hb₃.code
    have h4 := h.size
    simp only [List.length_append, List.length_cons, List.length_nil] at h2 ⊢
    omega
  · intro j
    rw [hall.vars, h.vars]
  · intro j
    rw [hb₃.live]
    by_cases hju : j = u
    · rw [hju, Function.update_self, if_pos (lt_size_of_live hx), hx, Option.map_some,
        if_pos (by simp), fillOf_concat hu]
      simp
    · rw [Function.update_of_ne hju, hb₂.live, hb₁.live]
      by_cases hji : j = ((f.slots.size + 1 + us.length : Nat) : Int)
      · rw [hji, Function.update_self, if_neg (by omega), if_neg (by omega),
          if_pos (by simp)]
      · rw [Function.update_of_ne hji, h.live]
        by_cases hlt : j < f.slots.size
        · rw [if_pos hlt, if_pos hlt]
          by_cases hus : j ∈ us
          · simp [hus, fillOf_append]
          · simp [hus, hju]
        · rw [if_neg hlt, if_neg hlt]
          have : j < f.slots.size + 1 + us.length ↔ j < f.slots.size + 1 + (us ++ [u]).length := by
            simp
            omega
          simp only [this]
  · intro d
    rw [hb₃.code, hb₂.code]
    by_cases hd : d = c
    · subst hd
      rw [Function.update_self, hl, Option.map_some, withFills_append, withFills_concat hpre,
        withFills_cons, withFills_concat hpost, if_pos (by simp), fillOf_concat hu]
      simp
    · rw [Function.update_of_ne hd, hb₁.code, h.code]
      cases hk : f.listing? d with
      | none => rfl
      | some k =>
        have huk : u ∉ k := fun hmem => hd (hf.block_unique hk hmem hl (by simp))
        rw [Option.map_some, Option.map_some, withFills_concat huk]

lemma Reloaded.reloads (hf : Sound f) (hid : (f.at? id).isSome) {rest : List Id}
    (h : Reloaded f g id us) (fills : BitSet) (hnd : (us ++ rest).Nodup)
    (hrest : ∀ u ∈ rest, ∃ x c l, f.live? u = some x ∧ f.listing? c = some l ∧ u ∈ l) :
    ∃ g' fills', rest.foldlM (fun ((g, fills) : Func × BitSet) user => do
        let (fill, g) ← g.reload id f.slots.size user
        return (g, fills.insert fill.toNat)) (g, fills) = .ok (g', fills') ∧
      Reloaded f g' id (us ++ rest) ∧
      ∀ k < f.slots.size, fills'.contains k = fills.contains k := by
  induction rest generalizing us g fills with
  | nil => exact ⟨g, fills, rfl, by simpa using h, fun _ _ => rfl⟩
  | cons u rest ih =>
    obtain ⟨x, c, l, hx, hl, hmem⟩ := hrest u (by simp)
    have hu : u ∉ us := by
      have := List.nodup_append.mp hnd
      intro hus
      exact this.2.2 u hus u (by simp) rfl
    obtain ⟨g₁, h₁, hr₁⟩ := h.reload hf hid hu hx hl hmem
    obtain ⟨g₂, fills₂, h₂, hr₂, hk₂⟩ := ih hr₁ (fills.insert (f.slots.size + 1 + us.length))
      (by simpa using hnd) fun w hw => hrest w (by simp [hw])
    refine ⟨g₂, fills₂, ?_, by simpa using hr₂, ?_⟩
    · rw [List.foldlM_cons]
      simp only [h₁, ok_bind, pure_eq_ok]
      exact h₂
    · intro k hk
      rw [hk₂ k hk, BitSet.contains_insert, decide_eq_false (by omega), Bool.false_or]

lemma placed_of_reload {v : Id} {r : Id × Func} (h : g.reload id v u = .ok r) :
    ∃ c l, g.listing? c = some l ∧ u ∈ l := by
  unfold reload at h
  rw [bind_eq_ok] at h
  obtain ⟨s, -, h⟩ := h
  rw [bind_eq_ok] at h
  obtain ⟨⟨i, g₁⟩, hnew, h⟩ := h
  simp only [bind_eq_ok] at h
  obtain ⟨g₂, hins, -⟩ := h
  unfold insertBefore at hins
  rw [bind_eq_ok] at hins
  obtain ⟨⟨c, k⟩, hpos, -⟩ := hins
  obtain ⟨pre, post, hl, -⟩ := pos_split hpos
  obtain ⟨-, ⟨slots, rfl⟩, -⟩ := new_spec hnew
  exact ⟨c, _, hl, by simp⟩

lemma Reloaded.placed_of_reloads (hf : Sound f) (hid : (f.at? id).isSome) {rest : List Id}
    (h : Reloaded f g id us) {fills : BitSet} (hnd : (us ++ rest).Nodup)
    (hrest : ∀ u ∈ rest, ∃ x, f.live? u = some x) {r : Func × BitSet}
    (hok : rest.foldlM (fun ((g, fills) : Func × BitSet) user => do
        let (fill, g) ← g.reload id f.slots.size user
        return (g, fills.insert fill.toNat)) (g, fills) = .ok r) :
    ∀ u ∈ rest, ∃ c l, f.listing? c = some l ∧ u ∈ l := by
  induction rest generalizing us g fills with
  | nil => simp
  | cons u rest ih =>
    obtain ⟨x, hx⟩ := hrest u (by simp)
    have hu : u ∉ us := fun hus => (List.nodup_append.mp hnd).2.2 u hus u (by simp) rfl
    rw [List.foldlM_cons, bind_eq_ok] at hok
    obtain ⟨st, hstep, hok⟩ := hok
    rw [bind_eq_ok] at hstep
    obtain ⟨r₁, hreload, hst⟩ := hstep
    obtain ⟨c, l, hl, hmem⟩ : ∃ c l, f.listing? c = some l ∧ u ∈ l := by
      obtain ⟨c, m, hm, hum⟩ := placed_of_reload hreload
      rw [h.code] at hm
      obtain ⟨l, hl, rfl⟩ := Option.map_eq_some_iff.mp hm
      rcases mem_withFills.mp hum with hul | ⟨w, -, hw, hfill⟩
      · exact ⟨c, l, hl, hul⟩
      · have h1 := (fillOf_bounds (n := f.slots.size) hw).1
        have h2 := lt_size_of_live (hfill ▸ hx)
        omega
    obtain ⟨g₁, h₁, hr₁⟩ := h.reload hf hid hu hx hl hmem
    obtain rfl : r₁ = _ := Except.ok.inj (hreload.symm.trans h₁)
    obtain rfl : _ = st := Except.ok.inj hst
    intro w hw
    rcases List.mem_cons.mp hw with rfl | hw
    · exact ⟨c, l, hl, hmem⟩
    · exact ih hr₁ (by simpa using hnd) (fun w hw => hrest w (by simp [hw])) hok w hw

/-- Function `f'` comes from `f` by spilling `id`, which stands in block `b` between `pre` and `post`
and is used by `us`. -/
structure Spills (f f' : Func) (id : Id) (b : BlockId) (pre post us : List Id) : Prop where
  here : f.listing? b = some (pre ++ id :: post)
  users : ∀ u, u ∈ us ↔ ∃ x, f.live? u = some x ∧ id ∈ x.operands
  nodup : us.Nodup
  rest : ∃ slots blocks,
    f' = { f with slots := slots, blocks := blocks, locals := f.locals ++ [(f.slots.size : Int)] }
  sound : Sound f'
  slots : f'.slots.size = f.slots.size + us.length + 2
  blocks : f'.blocks.size = f.blocks.size
  size : f'.size = f.size + us.length + 1
  vars : ∀ j : Int, f'.varOf? j = if j = f.slots.size then some spillVariable else f.varOf? j
  live : ∀ j : Int, f'.live? j =
    if j < f.slots.size then
      (f.live? j).map (·.rename (instead id (fillOf f.slots.size us j)))
    else if j = f.slots.size then some (.var spillVariable)
    else if j < f.slots.size + 1 + us.length then some (.load f.slots.size)
    else if j = f.slots.size + 1 + us.length then some (.store f.slots.size id)
    else none
  code : f'.listing? b = some (withFills f.slots.size us pre ++
    id :: ((f.slots.size + 1 + us.length : Nat) : Int) :: withFills f.slots.size us post)
  others : ∀ c, c ≠ b → f'.listing? c = (f.listing? c).map (withFills f.slots.size us)

/-- A placed value whose users are placed can be spilled. -/
theorem Sound.spill_ok (hf : Sound f) (fills : BitSet) {pre post : List Id}
    (hl : f.listing? b = some (pre ++ id :: post))
    (hself : ∀ x, f.live? id = some x → id ∉ x.operands)
    (husers : ∀ u x, f.live? u = some x → id ∈ x.operands → ∃ c l, f.listing? c = some l ∧ u ∈ l) :
    ∃ f' fills' us, f.spill fills id = .ok (f', fills') ∧ Spills f f' id b pre post us ∧
      ∀ k < f.slots.size, fills'.contains k = fills.contains k := by
  obtain ⟨s, hs, -, hd, hv⟩ := hf.code hl id (by simp)
  obtain ⟨us, hus⟩ : ∃ us, us = s.refs.eraseDups := ⟨_, rfl⟩
  have hmem : ∀ u, u ∈ us ↔ ∃ x, f.live? u = some x ∧ id ∈ x.operands := by
    intro u
    rw [hus, List.mem_eraseDups]
    exact hf.mem_refs_iff hs
  have hnd : us.Nodup := hus ▸ nodup_eraseDups s.refs
  have hx : f.live? id = some s.payload := live?_eq_some.mpr ⟨s, hs, hd, rfl⟩
  have hid : id ∉ us := by
    rw [hmem]
    rintro ⟨y, hy, hop⟩
    exact hself y hy hop
  have hat : (f.at? id).isSome := at?_isSome_of_live hx
  obtain ⟨g, fills', hfold, hg, hk⟩ := (hf.reloaded_newVar s.loc id).reloads hf hat
    fills (by simpa using hnd) (by
      intro u hu
      obtain ⟨y, hy, hop⟩ := (hmem u).mp hu
      obtain ⟨c, l, hc, hul⟩ := husers u y hy hop
      exact ⟨y, c, l, hy, hc, hul⟩)
  rw [List.nil_append] at hg
  have hops : ∀ op ∈ (Payload.store f.slots.size id).operands, (g.at? op).isSome := by
    intro op hop
    have hb := at?_isSome.mp hat
    simp only [Payload.operands, List.mem_cons, List.not_mem_nil, or_false] at hop
    rw [at?_isSome, hg.slots]
    rcases hop with rfl | rfl <;> omega
  obtain ⟨g₁, h₁, hsize₁, hb₁⟩ := hg.sound.new_becomes s.loc (x := .store f.slots.size id) (by simp)
    hops
  rw [hg.slots] at h₁ hsize₁ hb₁
  have hcode : g₁.listing? b =
      some (withFills f.slots.size us pre ++ id :: withFills f.slots.size us post) := by
    rw [hb₁.code, hg.code, hl, Option.map_some, withFills_append, withFills_cons, if_neg hid]
    rfl
  obtain ⟨f', h₂, hsize₂, hb₂⟩ := hb₁.sound.insertAfter_becomes
    (x := .store f.slots.size id) (i := ((f.slots.size + 1 + us.length : Nat) : Int))
    (by rw [hb₁.live, Function.update_self]) (by simp)
    (by
      intro d k hk hmem
      rw [hb₁.code] at hk
      have := hg.sound.lt_size_of_mem hk hmem
      rw [hg.slots] at this
      omega) hcode
  have hall := hb₁.trans hb₂
  refine ⟨f', fills', us, ?_, ⟨hl, hmem, hnd, ?_, hall.sound, ?_, ?_, ?_, ?_, ?_, ?_, ?_⟩, hk⟩
  · unfold spill
    rw [slot_eq_ok.mpr hs, ok_bind, ← hus]
    refine bind_eq_ok.mpr ⟨(g, fills'), hfold, ?_⟩
    refine bind_eq_ok.mpr ⟨(_, g₁), h₁, ?_⟩
    exact bind_eq_ok.mpr ⟨f', h₂, rfl⟩
  · obtain ⟨slots, blocks, hg⟩ := hg.rest
    obtain ⟨slots', blocks', hg'⟩ := hall.frame
    exact ⟨slots', blocks', by rw [hg', hg]⟩
  · rw [hsize₂, hsize₁]
    omega
  · rw [hall.blocks, hg.blocks]
  · have h1 : g₁.size = g.size := size_congr hb₁.blocks hb₁.code
    have h2 := size_update hb₂.blocks hcode hb₂.code
    have h3 := hg.size
    simp only [List.length_append, List.length_cons] at h2
    omega
  · intro j
    rw [hall.vars, hg.vars]
  · intro j
    rw [hb₂.live, hb₁.live]
    by_cases hji : j = ((f.slots.size + 1 + us.length : Nat) : Int)
    · rw [hji, Function.update_self, if_neg (by omega), if_neg (by omega), if_neg (by omega),
        if_pos (by simp)]
    · rw [Function.update_of_ne hji, hg.live]
      by_cases hlt : j < f.slots.size
      · rw [if_pos hlt, if_pos hlt]
        cases hy : f.live? j with
        | none => rfl
        | some y =>
          by_cases hj : j ∈ us
          · simp [hj]
          · have hop : ∀ op ∈ y.operands, instead id (fillOf f.slots.size us j) op = op := by
              intro op hop
              refine instead_of_ne ?_
              rintro rfl
              exact hj ((hmem j).mpr ⟨y, hy, hop⟩)
            simp [hj, Payload.rename_of_fixed hop]
      · have : ¬ j = f.slots.size + 1 + us.length := by omega
        simp [hlt, this]
  · rw [hb₂.code, Function.update_self]
  · intro c hc
    rw [hb₂.code, Function.update_of_ne hc, hb₁.code, hg.code]

lemma Sound.placed_of_spill (hf : Sound f) {fills : BitSet} {r : Func × BitSet}
    (h : f.spill fills id = .ok r) {x : Payload} (hx : f.live? u = some x) (hop : id ∈ x.operands) :
    ∃ c l, f.listing? c = some l ∧ u ∈ l := by
  unfold spill at h
  rw [bind_eq_ok] at h
  obtain ⟨s, hs, h⟩ := h
  rw [slot_eq_ok] at hs
  simp only [bind_eq_ok] at h
  obtain ⟨r₁, hfold, -⟩ := h
  have hmem := fun w => List.mem_eraseDups.trans (hf.mem_refs_iff (u := w) hs)
  exact (hf.reloaded_newVar s.loc id).placed_of_reloads hf (by rw [hs]; rfl)
    (by simpa using nodup_eraseDups s.refs)
    (fun w hw => ((hmem w).mp hw).imp fun y hy => hy.1) hfold u ((hmem u).mpr ⟨x, hx, hop⟩)

end Func

end Flow

end Accumulator
