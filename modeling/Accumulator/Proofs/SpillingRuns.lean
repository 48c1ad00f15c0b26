import Mathlib
import Accumulator.Proofs.Sparing
import Accumulator.Proofs.Spilling

/-!
# A spilled value in a well-formed function

Users of a value of a block that control comes to stand behind it in the same block. So spilling it
changes the code of that block only, as far as control comes, and gives a well-formed function with
the same edges. From the store to the end of the block the variable holds the value, since no call
leads back to the function: runs are the same but for that variable.
-/

namespace Accumulator.Flow

lemma Activation.set_eq (a : Activation) (i : Id) (v : Option Value) :
    a.set i v = { a with values := fun j => if j = i then v.getD (a.values j) else a.values j } := by
  cases v with
  | none => simp [set]
  | some y => rfl

namespace Func

variable {f f' : Func} {id u : Int} {b c : BlockId} {pre post us l : List Id}

/-- Every user of an instruction is placed. -/
def PlacedUsers (f : Func) (i : Id) : Prop :=
  ∀ {u x}, f.live? u = some x → i ∈ x.operands → ∃ c m, f.listing? c = some m ∧ u ∈ m

/-- Every user of an instruction that control may come to is placed. -/
def UsersPlaced (f : Func) : Prop :=
  ∀ {b l i u x}, f.Reaches b → f.listing? b = some l → i ∈ l → f.live? u = some x →
    i ∈ x.operands → ∃ c m, f.listing? c = some m ∧ u ∈ m

/-- A value that can be spilled. -/
structure Spillable (f : Func) (id : Id) (b : BlockId) (pre post : List Id) : Prop where
  sound : Sound f
  framed : Framed f
  wellFormed : WellFormed f
  placed : PlacedUsers f id
  reaches : f.Reaches b
  here : f.listing? b = some (pre ++ id :: post)
  produces : ∃ x, f.live? id = some x ∧ x.produces = true

lemma Sound.varOf?_of_mem (hf : Sound f) {j : Id} (hl : f.listing? c = some l) (hj : j ∈ l) :
    f.varOf? j = none := by
  obtain ⟨x, hx, hv⟩ := hf.live_of_mem hl hj
  rw [varOf?_of_live hx, Payload.asVar_eq_none]
  exact hv

namespace Spillable

lemma varOf?_eq_none (h : Spillable f id b pre post) : f.varOf? id = none :=
  h.sound.varOf?_of_mem h.here (by simp)

lemma user_placed (h : Spillable f id b pre post) {x : Payload} (hx : f.live? u = some x)
    (hop : id ∈ x.operands) (hc : f.Reaches c) (hl : f.listing? c = some l) (hu : u ∈ l) :
    c = b ∧ u ∈ post := by
  obtain ⟨p, q, rfl⟩ := List.append_of_mem hu
  have hmem : id ∈ p := by
    rcases h.wellFormed.ordered hc hl hx id hop with hv | hmem
    · rw [h.varOf?_eq_none] at hv
      exact absurd hv (by simp)
    · exact hmem
  obtain rfl : c = b := h.sound.block_unique hl (List.mem_append_left _ hmem) h.here (by simp)
  refine ⟨rfl, ?_⟩
  obtain ⟨p₁, p₂, rfl⟩ := List.append_of_mem hmem
  obtain ⟨hpre, hpost⟩ := h.sound.not_mem_pre h.here
  have heq : pre ++ id :: post = p₁ ++ id :: (p₂ ++ u :: q) := by
    rw [h.here, Option.some.injEq] at hl
    simpa using hl
  obtain ⟨-, -, rfl⟩ := (List.append_cons_inj_of_notMem hpre hpost).mp heq
  simp

lemma not_self (h : Spillable f id b pre post) {x : Payload} (hx : f.live? id = some x) :
    id ∉ x.operands := by
  intro hop
  have := (h.user_placed hx hop h.reaches h.here (by simp)).2
  exact (h.sound.not_mem_pre h.here).2 this

lemma post_ne_nil (h : Spillable f id b pre post) : post ≠ [] := by
  rintro rfl
  obtain ⟨l, hl, hcl⟩ := h.wellFormed.closes h.reaches
  rw [h.here, Option.some.injEq] at hl
  obtain ⟨x, hx, hp⟩ := h.produces
  rw [← hl, closes_append (by simp)] at hcl
  obtain ⟨y, hy, ht⟩ := hcl.2
  rw [hx, Option.some.injEq] at hy
  rw [← hy, Payload.isTerminal_of_produces hp] at ht
  cases ht

lemma spill_ok (h : Spillable f id b pre post) (fills : BitSet) :
    ∃ f' fills' us, f.spill fills id = .ok (f', fills') ∧ Spills f f' id b pre post us ∧
      ∀ k < f.slots.size, fills'.contains k = fills.contains k :=
  h.sound.spill_ok fills h.here (fun _ hx => h.not_self hx)
    fun _ _ hx hop => h.placed hx hop

end Spillable

namespace Spills

lemma live_old (hs : Spills f f' id b pre post us) {j : Int} {x : Payload} (hx : f.live? j = some x) :
    f'.live? j = some (x.rename (instead id (fillOf f.slots.size us j))) := by
  rw [hs.live, if_pos (lt_size_of_live hx), hx, Option.map_some]

lemma live_fill (hs : Spills f f' id b pre post us) (hu : u ∈ us) :
    f'.live? (fillOf f.slots.size us u) = some (.load f.slots.size) := by
  obtain ⟨h1, h2⟩ := fillOf_bounds (n := f.slots.size) hu
  rw [hs.live, if_neg (by omega), if_neg (by omega), if_pos h2]

lemma live_store (hs : Spills f f' id b pre post us) :
    f'.live? ((f.slots.size + 1 + us.length : Nat) : Int) = some (.store f.slots.size id) := by
  rw [hs.live, if_neg (by omega), if_neg (by omega), if_neg (by omega), if_pos (by simp)]

lemma live_cases (hs : Spills f f' id b pre post us) {j : Int} {y : Payload}
    (hy : f'.live? j = some y) :
    (∃ x, f.live? j = some x ∧ y = x.rename (instead id (fillOf f.slots.size us j))) ∨
      (j = f.slots.size ∧ y = .var spillVariable) ∨
      (∃ u ∈ us, j = fillOf f.slots.size us u ∧ y = .load f.slots.size) ∨
      (j = ((f.slots.size + 1 + us.length : Nat) : Int) ∧ y = .store f.slots.size id) := by
  rw [hs.live] at hy
  split at hy
  · obtain ⟨x, hx, rfl⟩ := Option.map_eq_some_iff.mp hy
    exact Or.inl ⟨x, hx, rfl⟩
  split at hy
  · exact Or.inr (Or.inl ⟨by assumption, (Option.some.inj hy).symm⟩)
  split at hy
  · rename_i h1 h2 h3
    refine Or.inr (Or.inr (Or.inl ?_))
    obtain ⟨k, rfl⟩ : ∃ k : Nat, j = f.slots.size + 1 + k := ⟨(j - f.slots.size - 1).toNat, by omega⟩
    have hk : k < us.length := by omega
    refine ⟨us[k], List.getElem_mem hk, ?_, (Option.some.inj hy).symm⟩
    unfold fillOf
    rw [hs.nodup.idxOf_getElem]
  split at hy
  · exact Or.inr (Or.inr (Or.inr ⟨by omega, (Option.some.inj hy).symm⟩))
  · cases hy

lemma user_behind (hs : Spills f f' id b pre post us) (h : Spillable f id b pre post) (hu : u ∈ us)
    (hc : f.Reaches c) (hl : f.listing? c = some l) (hmem : u ∈ l) : c = b ∧ u ∈ post := by
  obtain ⟨x, hx, hop⟩ := (hs.users u).mp hu
  exact h.user_placed hx hop hc hl hmem

lemma not_mem_pre (hs : Spills f f' id b pre post us) (h : Spillable f id b pre post) (hu : u ∈ us) :
    u ∉ pre := by
  intro hmem
  have hpost := (hs.user_behind h hu h.reaches h.here (by simp [hmem])).2
  have hnd := h.sound.nodup h.here
  exact (List.nodup_append.mp hnd).2.2 u hmem u (by simp [hpost]) rfl

lemma self_not_mem (hs : Spills f f' id b pre post us) (h : Spillable f id b pre post) : id ∉ us := by
  intro hu
  obtain ⟨x, hx, hop⟩ := (hs.users id).mp hu
  exact h.not_self hx hop

lemma listing_here (hs : Spills f f' id b pre post us) (h : Spillable f id b pre post) :
    f'.listing? b = some (pre ++ id :: ((f.slots.size + 1 + us.length : Nat) : Int) ::
      withFills f.slots.size us post) := by
  rw [hs.code, withFills_of_disjoint fun j hj hu => hs.not_mem_pre h hu hj]

lemma listing_there (hs : Spills f f' id b pre post us) (h : Spillable f id b pre post)
    (hc : f.Reaches c) (hne : c ≠ b) : f'.listing? c = f.listing? c := by
  rw [hs.others c hne]
  cases hl : f.listing? c with
  | none => rfl
  | some l =>
    rw [Option.map_some, withFills_of_disjoint fun j hj hu => hne (hs.user_behind h hu hc hl hj).1]

lemma getLast?_listing (hs : Spills f f' id b pre post us) (h : Spillable f id b pre post)
    (c : BlockId) : (f'.listing? c).map List.getLast? = (f.listing? c).map List.getLast? := by
  by_cases hc : c = b
  · subst hc
    have hne := h.post_ne_nil
    have hlast : (withFills f.slots.size us post).getLast? = post.getLast? := getLast?_withFills
    have hne' : withFills f.slots.size us post ≠ [] := by
      intro h0
      rw [h0, List.getLast?_nil] at hlast
      exact hne (List.getLast?_eq_none_iff.mp hlast.symm)
    have hcons : ∀ (i : Id) {q : List Id}, q ≠ [] → (i :: q).getLast? = q.getLast? := by
      intro i q hq
      rw [← List.singleton_append, List.getLast?_append_of_ne_nil _ hq]
    rw [hs.listing_here h, h.here, Option.map_some, Option.map_some,
      List.getLast?_append_of_ne_nil _ (by simp), List.getLast?_append_of_ne_nil _ (by simp),
      hcons _ (by simp), hcons _ hne', hcons _ hne, hlast]
  · rw [hs.others c hc]
    cases f.listing? c <;> simp [getLast?_withFills]

lemma leads_iff (hs : Spills f f' id b pre post us) (h : Spillable f id b pre post)
    {d : BlockId} : f'.Leads c d ↔ f.Leads c d := by
  have hlast := hs.getLast?_listing h c
  constructor
  · rintro ⟨l, t, y, hl, ht, hy, hd⟩
    rw [hl, Option.map_some, ht] at hlast
    obtain ⟨m, hm, hmt⟩ := Option.map_eq_some_iff.mp hlast.symm
    obtain ⟨x, hx, -⟩ := h.sound.live_of_mem hm (List.mem_of_getLast? hmt)
    rw [hs.live_old hx, Option.some.injEq] at hy
    exact ⟨m, t, x, hm, hmt, hx, by rwa [← hy, targets_rename] at hd⟩
  · rintro ⟨l, t, x, hl, ht, hx, hd⟩
    rw [hl, Option.map_some, ht] at hlast
    obtain ⟨m, hm, hmt⟩ := Option.map_eq_some_iff.mp hlast
    exact ⟨m, t, _, hm, hmt, hs.live_old hx, by rwa [targets_rename]⟩

lemma entry_eq (hs : Spills f f' id b pre post us) : f'.entry = f.entry := by
  obtain ⟨slots, blocks, hrest⟩ := hs.rest
  rw [hrest]

lemma reaches_iff (hs : Spills f f' id b pre post us) (h : Spillable f id b pre post) :
    f'.Reaches c ↔ f.Reaches c := by
  have hleads : f'.Leads = f.Leads := by
    funext c d
    exact propext (hs.leads_iff h)
  unfold Reaches
  rw [hleads, hs.entry_eq]

lemma closes_withFills (hs : Spills f f' id b pre post us) (hcl : f.Closes l) :
    f'.Closes (withFills f.slots.size us l) := by
  induction l with
  | nil => exact hcl.elim
  | cons j l ih =>
    have hfill : ∀ m, m ≠ [] → f'.Closes m →
        f'.Closes ((if j ∈ us then [fillOf f.slots.size us j] else []) ++ m) := by
      intro m hm hcl
      rw [closes_append hm]
      refine ⟨fun i hi => ?_, hcl⟩
      split at hi
      · obtain rfl := List.mem_singleton.mp hi
        exact ⟨_, hs.live_fill (by assumption), rfl⟩
      · simp at hi
    have hsplit : withFills f.slots.size us (j :: l) =
        (if j ∈ us then [fillOf f.slots.size us j] else []) ++
          ([j] ++ withFills f.slots.size us l) := by
      rw [withFills_cons]
      split <;> rfl
    rw [hsplit]
    refine hfill _ (by simp) ?_
    cases l with
    | nil =>
      obtain ⟨x, hx, ht⟩ := hcl
      exact ⟨_, hs.live_old hx, by rw [isTerminal_rename, ht]⟩
    | cons i l =>
      obtain ⟨⟨x, hx, ht⟩, hrest⟩ := hcl
      rw [closes_append (by rw [withFills_cons]; split <;> simp)]
      refine ⟨fun d hd => ?_, ih hrest⟩
      obtain rfl := List.mem_singleton.mp hd
      exact ⟨_, hs.live_old hx, by rw [isTerminal_rename, ht]⟩

lemma mem_listing (hs : Spills f f' id b pre post us) (h : Spillable f id b pre post) {m : List Id}
    (hl : f.listing? c = some l) (hm : f'.listing? c = some m) {j : Int} :
    j ∈ m ↔ j ∈ l ∨ (∃ u ∈ l, u ∈ us ∧ j = fillOf f.slots.size us u) ∨
      (c = b ∧ j = ((f.slots.size + 1 + us.length : Nat) : Int)) := by
  by_cases hc : c = b
  · subst hc
    have hid := hs.self_not_mem h
    rw [hs.here, Option.some.injEq] at hl
    rw [hs.code, Option.some.injEq] at hm
    subst hl hm
    simp only [List.mem_append, List.mem_cons, mem_withFills, true_and]
    grind
  · rw [hs.others c hc, hl, Option.map_some, Option.some.injEq] at hm
    rw [← hm, mem_withFills]
    simp [hc]

lemma closes_here (hs : Spills f f' id b pre post us) (h : Spillable f id b pre post) :
    f'.Closes (withFills f.slots.size us pre ++
      id :: ((f.slots.size + 1 + us.length : Nat) : Int) :: withFills f.slots.size us post) := by
  obtain ⟨l, hl, hcl⟩ := h.wellFormed.closes h.reaches
  rw [h.here, Option.some.injEq] at hl
  subst hl
  rw [← List.singleton_append, ← List.append_assoc, closes_append h.post_ne_nil] at hcl
  have hpost := hs.closes_withFills hcl.2
  have hne : withFills f.slots.size us post ≠ [] := by
    intro h0
    rw [h0] at hpost
    exact hpost
  have hall : ∀ i ∈ withFills f.slots.size us pre ++ [id, ((f.slots.size + 1 + us.length : Nat) : Int)],
      ∃ x, f'.live? i = some x ∧ x.isTerminal = false := by
    have hold : ∀ i ∈ pre ++ [id], ∃ x, f'.live? i = some x ∧ x.isTerminal = false := by
      intro i hi
      obtain ⟨x, hx, ht⟩ := hcl.1 i hi
      exact ⟨_, hs.live_old hx, by rw [isTerminal_rename, ht]⟩
    intro i hi
    simp only [List.mem_append, List.mem_cons, List.not_mem_nil, or_false, mem_withFills] at hi
    rcases hi with (hi | ⟨w, -, hw, rfl⟩) | rfl | rfl
    · exact hold i (by simp [hi])
    · exact ⟨_, hs.live_fill hw, rfl⟩
    · exact hold i (by simp)
    · exact ⟨_, hs.live_store, rfl⟩
  have := (closes_append hne).mpr ⟨hall, hpost⟩
  simpa using this

lemma operands_live (hs : Spills f f' id b pre post us) (h : Spillable f id b pre post) {y : Payload}
    (hy : f'.live? u = some y) {d : Id} (hd : d ∈ y.operands) : (f'.live? d).isSome := by
  have hvar : (f'.live? (f.slots.size : Int)).isSome := by
    rw [hs.live]
    simp
  have hid : (f'.live? id).isSome := by
    obtain ⟨x, hx, -⟩ := h.produces
    rw [hs.live_old hx]
    rfl
  rcases hs.live_cases hy with ⟨x, hx, rfl⟩ | ⟨-, rfl⟩ | ⟨w, -, -, rfl⟩ | ⟨-, rfl⟩
  · rw [Payload.operands_rename, List.mem_map] at hd
    obtain ⟨d₀, hd₀, rfl⟩ := hd
    by_cases h0 : d₀ = id
    · subst h0
      rw [instead_self, hs.live_fill ((hs.users u).mpr ⟨x, hx, hd₀⟩)]
      rfl
    · rw [instead_of_ne h0]
      obtain ⟨z, hz⟩ := Option.isSome_iff_exists.mp (h.wellFormed.operands hx d₀ hd₀)
      rw [hs.live_old hz]
      rfl
  · simp [Payload.operands] at hd
  · simp only [Payload.operands, List.mem_singleton] at hd
    rw [hd]
    exact hvar
  · simp only [Payload.operands, List.mem_cons, List.not_mem_nil, or_false] at hd
    rcases hd with rfl | rfl
    · exact hvar
    · exact hid

end Spills

lemma Sound.split_unique (hf : Sound f) {p q p' q' : List Id} (h : f.listing? c = some (p ++ u :: q))
    (h' : f.listing? c = some (p' ++ u :: q')) : p = p' ∧ q = q' := by
  obtain ⟨hp, hq⟩ := hf.not_mem_pre h
  have heq : p ++ u :: q = p' ++ u :: q' := Option.some.inj (h.symm.trans h')
  obtain ⟨h1, -, h2⟩ := (List.append_cons_inj_of_notMem hp hq).mp heq
  exact ⟨h1, h2⟩

namespace Spills

lemma varOf?_isSome (hs : Spills f f' id b pre post us) {d : Id} (hd : (f.varOf? d).isSome) :
    (f'.varOf? d).isSome := by
  rw [hs.vars]
  split
  · rfl
  · exact hd

/-- What stood before an instruction stands before it behind a spilling, and so does its load. -/
lemma before_old (hs : Spills f f' id b pre post us) (h : Spillable f id b pre post)
    {p q p' q' : List Id} (hc : f.Reaches c) (hl : f.listing? c = some (p ++ u :: q))
    (hl' : f'.listing? c = some (p' ++ u :: q')) :
    (∀ j ∈ p, j ∈ p') ∧ (u ∈ us → fillOf f.slots.size us u ∈ p') := by
  by_cases hcb : c = b
  · subst hcb
    have hcode := hs.listing_here h
    have hmem : u ∈ pre ++ id :: post := by
      rw [h.here, Option.some.injEq] at hl
      rw [hl]
      simp
    rcases List.mem_append.mp hmem with hpre | hrest
    · have hu : u ∉ us := fun hu => hs.not_mem_pre h hu hpre
      obtain ⟨p₀, q₀, rfl⟩ := List.append_of_mem hpre
      obtain ⟨rfl, -⟩ := h.sound.split_unique hl
        (show _ = some (p₀ ++ u :: (q₀ ++ id :: post)) by simpa using h.here)
      obtain ⟨rfl, -⟩ := hs.sound.split_unique hl' (hcode.trans (by simp; rfl))
      exact ⟨fun j hj => hj, fun hus => absurd hus hu⟩
    rcases List.mem_cons.mp hrest with rfl | hpost
    · obtain ⟨rfl, -⟩ := h.sound.split_unique hl h.here
      obtain ⟨rfl, -⟩ := hs.sound.split_unique hl' hcode
      exact ⟨fun j hj => hj, fun hus => absurd hus (hs.self_not_mem h)⟩
    · obtain ⟨p₀, q₀, rfl⟩ := List.append_of_mem hpost
      obtain ⟨rfl, -⟩ := h.sound.split_unique hl
        (show _ = some ((pre ++ id :: p₀) ++ u :: q₀) by simpa using h.here)
      have hcode' : f'.listing? c = some ((pre ++ id :: ((f.slots.size + 1 + us.length : Nat) : Int) ::
          (withFills f.slots.size us p₀ ++ if u ∈ us then [fillOf f.slots.size us u] else [])) ++
            u :: withFills f.slots.size us q₀) := by
        rw [hcode, withFills_append, withFills_cons]
        split <;> simp
      obtain ⟨rfl, -⟩ := hs.sound.split_unique hl' hcode'
      refine ⟨fun j hj => ?_, fun hus => by simp [hus]⟩
      simp only [List.mem_append, List.mem_cons, mem_withFills] at hj ⊢
      tauto
  · rw [hs.listing_there h hc hcb] at hl'
    obtain ⟨rfl, -⟩ := h.sound.split_unique hl hl'
    refine ⟨fun j hj => hj, fun hu => ?_⟩
    exact absurd (hs.user_behind h hu hc hl (by simp)).1 hcb

lemma ordered (hs : Spills f f' id b pre post us) (h : Spillable f id b pre post)
    {p q : List Id} {y : Payload} (hc : f.Reaches c) (hl : f'.listing? c = some (p ++ u :: q))
    (hy : f'.live? u = some y) {d : Id} (hd : d ∈ y.operands) : (f'.varOf? d).isSome ∨ d ∈ p := by
  have hvar : (f'.varOf? (f.slots.size : Int)).isSome := by
    rw [hs.vars]
    simp
  rcases hs.live_cases hy with ⟨x, hx, rfl⟩ | ⟨-, rfl⟩ | ⟨w, -, -, rfl⟩ | ⟨hu, rfl⟩
  · obtain ⟨l₀, hl₀, -⟩ := h.wellFormed.closes hc
    have hmem : u ∈ l₀ := by
      have hlt := lt_size_of_live hx
      have hmem : u ∈ p ++ u :: q := by simp
      rcases (hs.mem_listing h hl₀ hl).mp hmem with hu | ⟨w, -, hw, hu⟩ | ⟨-, hu⟩
      · exact hu
      · have := (fillOf_bounds (n := f.slots.size) hw).1
        omega
      · omega
    obtain ⟨p₀, q₀, rfl⟩ := List.append_of_mem hmem
    obtain ⟨hbefore, hfill⟩ := hs.before_old h hc hl₀ hl
    rw [Payload.operands_rename, List.mem_map] at hd
    obtain ⟨d₀, hd₀, rfl⟩ := hd
    by_cases h0 : d₀ = id
    · subst h0
      rw [instead_self]
      exact Or.inr (hfill ((hs.users u).mpr ⟨x, hx, hd₀⟩))
    · rw [instead_of_ne h0]
      rcases h.wellFormed.ordered hc hl₀ hx d₀ hd₀ with hv | hd₀
      · exact Or.inl (hs.varOf?_isSome hv)
      · exact Or.inr (hbefore d₀ hd₀)
  · simp [Payload.operands] at hd
  · simp only [Payload.operands, List.mem_singleton] at hd
    rw [hd]
    exact Or.inl hvar
  · simp only [Payload.operands, List.mem_cons, List.not_mem_nil, or_false] at hd
    rcases hd with rfl | rfl
    · exact Or.inl hvar
    · have hcode := hs.listing_here h
      obtain rfl : c = b := hs.sound.block_unique hl (i := u) (by simp) hcode (by simp [hu])
      subst hu
      obtain ⟨rfl, -⟩ := hs.sound.split_unique hl (show _ = some ((pre ++ [d]) ++ _ :: _) by
        simpa using hcode)
      exact Or.inr (by simp)

theorem wellFormed (hs : Spills f f' id b pre post us) (h : Spillable f id b pre post) :
    WellFormed f' := by
  constructor
  · intro c hc
    rw [hs.reaches_iff h] at hc
    by_cases hcb : c = b
    · subst hcb
      exact ⟨_, hs.code, hs.closes_here h⟩
    · obtain ⟨l, hl, hcl⟩ := h.wellFormed.closes hc
      exact ⟨_, by rw [hs.others c hcb, hl]; rfl, hs.closes_withFills hcl⟩
  · intro u y hy d hd
    exact hs.operands_live h hy hd
  · intro c p u q y hc hl hy d hd
    exact hs.ordered h ((hs.reaches_iff h).mp hc) hl hy hd

lemma framed (hs : Spills f f' id b pre post us) (h : Spillable f id b pre post) : Framed f' := by
  obtain ⟨slots, blocks, hrest⟩ := hs.rest
  intro v hv
  rw [hrest] at hv
  simp only [List.mem_append, List.mem_singleton] at hv
  rcases hv with (hv | rfl) | hv
  · exact hs.varOf?_isSome (h.framed v (by simp [hv]))
  · rw [hs.vars, if_pos rfl]
    rfl
  · exact hs.varOf?_isSome (h.framed v (by simp [hv]))

lemma lt_size_of_varOf? {d : Int} (hd : (f.varOf? d).isSome) : 0 ≤ d ∧ d < f.slots.size :=
  at?_isSome.mp (at?_of_varOf? hd)

lemma varOf?_eq (hs : Spills f f' id b pre post us) {d : Int} (hd : d < f.slots.size) :
    f'.varOf? d = f.varOf? d := by
  rw [hs.vars, if_neg (by omega)]

lemma varOf?_fill (hs : Spills f f' id b pre post us) (hu : u ∈ us) :
    f'.varOf? (fillOf f.slots.size us u) = none := by
  rw [varOf?_of_live (hs.live_fill hu)]
  rfl

lemma sameFace (hs : Spills f f' id b pre post us) (h : Spillable f id b pre post) :
    Reading.SameFace f f' := by
  obtain ⟨slots, blocks, hrest⟩ := hs.rest
  refine ⟨by rw [hrest], by rw [hrest], fun p hp => ?_⟩
  exact hs.varOf?_eq (lt_size_of_varOf? (h.framed p (by simp [hp]))).2

lemma similar (hs : Spills f f' id b pre post us) (h : Spillable f id b pre post) {r : Reading}
    {k : Nat} (hk : r.program.funcs[k]? = some f) :
    Reading.Similar [⟨k, f.slots.size⟩] r (r.withFunc k f') := by
  refine Reading.similar_withFunc hk (hs.sameFace h) fun i hi => ?_
  have hne : i ≠ f.slots.size := by simpa using hi
  rw [hs.vars, if_neg (by omega)]

/-- One instruction of a block, whose load has been made if it is a user of the value. -/
lemma tracks (hs : Spills f f' id b pre post us) (h : Spillable f id b pre post) {x : Payload}
    (hx : f.live? u = some x) {k : Nat} {vs vs' : Id → Value}
    (hvals : ∀ d : Int, d < f.slots.size → vs' d = vs d)
    (hfill : u ∈ us → vs' (fillOf f.slots.size us u) = vs id)
    (hclean : ∀ d : Int, d < f.slots.size → (vs d).Clean [⟨k, f.slots.size⟩]) :
    Reading.Tracks [⟨k, f.slots.size⟩] (fun d => d ∈ x.operands)
      (instead id (fillOf f.slots.size us u)) { number := k, func := f, values := vs }
      { number := k, func := f', values := vs' } := by
  have hlt : ∀ d : Int, d ∈ x.operands → d < f.slots.size := by
    intro d hd
    obtain ⟨z, hz⟩ := Option.isSome_iff_exists.mp (h.wellFormed.operands hx d hd)
    exact lt_size_of_live hz
  refine ⟨rfl, ?_, ?_, ?_, fun d hd => hclean d (hlt d hd)⟩
  · intro d hd
    by_cases h0 : d = id
    · subst h0
      rw [instead_self, h.varOf?_eq_none]
      exact hs.varOf?_fill ((hs.users u).mpr ⟨x, hx, hd⟩)
    · rw [instead_of_ne h0]
      exact hs.varOf?_eq (hlt d hd)
  · intro d v hd hv
    have hb := lt_size_of_varOf? (f := f) (d := d) (by rw [hv]; rfl)
    have h0 : d ≠ id := by
      rintro rfl
      rw [h.varOf?_eq_none] at hv
      cases hv
    refine ⟨instead_of_ne h0, ?_⟩
    have : d.toNat ≠ f.slots.size := by omega
    simpa using this
  · intro d hd
    by_cases h0 : d = id
    · subst h0
      rw [instead_self]
      exact hfill ((hs.users u).mpr ⟨x, hx, hd⟩)
    · rw [instead_of_ne h0]
      exact hvals d (hlt d hd)

section

variable {r : Reading} {k : Nat} {goTo goTo' : Nat → BlockId → Exec Ending}

open Reading Accumulator.Exec

/-- Behind the store the code runs the same, as long as the variable holds the value. -/
lemma matching_behind (hs : Spills f f' id b pre post us) (h : Spillable f id b pre post)
    (hk : r.program.funcs[k]? = some f)
    (hbranch : ∀ c, f.Reaches c → Alike (Agree [⟨k, f.slots.size⟩]) Eq (goTo k c) (goTo' k c))
    (hcall : ∀ {j : Nat} {g}, r.program.funcs[j]? = some g →
      Alike (Agree [⟨k, f.slots.size⟩]) Eq (goTo j g.entry) (goTo' j g.entry))
    (hspare : ∀ j, r.program.Calls k j → j ≠ k ∧
      ∀ b, Spares [⟨k, f.slots.size⟩] (fun _ => True) (goTo' j b))
    {q : List Id} (hq : ∀ u ∈ q, u ∈ post) {vs vs' : Id → Value} {s t : Progress}
    (hvals : ∀ d : Int, d < f.slots.size → vs' d = vs d)
    (hclean : ∀ d : Int, d < f.slots.size → (vs d).Clean [⟨k, f.slots.size⟩]) (hst : Agree [⟨k, f.slots.size⟩] s t)
    (hholds : t.world.cells (home k f.slots.size) = vs id) :
    Matching (Agree [⟨k, f.slots.size⟩]) Eq
      ((r.exec goTo { number := k, func := f, values := vs } q).run s)
      (((r.withFunc k f').exec goTo' { number := k, func := f', values := vs' }
        (withFills f.slots.size us q)).run t) := by
  induction q generalizing vs vs' s t with
  | nil => exact ⟨rfl, hst⟩
  | cons u q ih =>
    have hmem : u ∈ pre ++ id :: post := by simp [hq u (by simp)]
    obtain ⟨x, hx, -⟩ := h.sound.live_of_mem h.here hmem
    have huid : u ≠ id := by
      rintro rfl
      exact (h.sound.not_mem_pre h.here).2 (hq u (by simp))
    have hstep : ∀ ws : Id → Value, (∀ d : Int, d < f.slots.size → ws d = vs d) →
        (u ∈ us → ws (fillOf f.slots.size us u) = vs id) →
        Matching (Agree [⟨k, f.slots.size⟩]) Eq
          ((r.exec goTo { number := k, func := f, values := vs } (u :: q)).run s)
          (((r.withFunc k f').exec goTo' { number := k, func := f', values := ws }
            (u :: withFills f.slots.size us q)).run t) := by
      intro ws hws hfill
      refine matching_exec_cons (hs.similar h hk) (hs.tracks h hx hws hfill hclean)
        (payload_of_live hx) (payload_of_live (hs.live_old hx)) (fun d hd => hd) ?_ hcall ?_ hst ?_
      · intro c hc
        exact hbranch c (h.wellFormed.reaches_target h.reaches h.here hmem hx hc)
      · rintro j args rfl
        obtain ⟨hj, hsp⟩ := hspare j ⟨f, b, (pre ++ id :: post).toArray, u, args, hk,
          code_eq_ok.mpr h.here, by simpa using hmem, payload_of_live hx⟩
        refine ⟨fun o ho => ?_, hsp⟩
        rw [List.mem_singleton.mp ho]
        exact hj.symm
      · intro v s' t' hv hst' hcells
        cases v with
        | none =>
          refine ih (fun w hw => hq w (by simp [hw])) hws hclean hst' ?_
          rw [hcells _ (by simp [home]), hholds]
        | some y =>
          refine ih (fun w hw => hq w (by simp [hw])) (fun d hd => ?_) (fun d hd => ?_) hst' ?_
          · change (if d = u then y else ws d) = if d = u then y else vs d
            rw [hws d hd]
          · dsimp only
            split
            · exact hv y rfl
            · exact hclean d hd
          · rw [hcells _ (by simp [home]), hholds, if_neg fun h0 => huid h0.symm]
    rw [withFills_cons]
    by_cases hu : u ∈ us
    · have hvar : (f'.varOf? (f.slots.size : Int)).isSome := by
        rw [hs.vars, if_pos rfl]
        rfl
      rw [if_pos hu]
      change Matching _ _ _ (((r.withFunc k f').exec goTo' _
        (fillOf f.slots.size us u :: u :: withFills f.slots.size us q)).run t)
      rw [run_exec_load (Or.inl (hs.live_fill hu)) hvar]
      refine hstep _ (fun d hd => ?_) fun _ => ?_
      · have := (fillOf_bounds (n := f.slots.size) hu).1
        have hne : d ≠ fillOf f.slots.size us u := by omega
        rw [if_neg hne]
        exact hvals d hd
      · rw [if_pos rfl, hholds]
    · rw [if_neg hu]
      exact hstep vs' hvals fun h0 => absurd h0 hu

lemma exec_apart (hs : Spills f f' id b pre post us) (h : Spillable f id b pre post)
    {H : List Object} (hbranch : ∀ c, f.Reaches c → Alike (Agree H) Eq (goTo k c) (goTo' k c))
    (hc : f.Reaches c) (hl : f.listing? c = some l) {i : Int} (hi : i ∈ l) (hu : i ∉ us) :
    (i = i ∧ ∀ d : Int, d < f.slots.size → d = i → d = i) ∧ ∃ x, f.payload i = .ok x ∧
      f'.payload i = .ok (x.rename fun d => d) ∧ (∀ d : Int, d ∈ x.operands → d < f.slots.size) ∧
      ∀ b ∈ x.targets, Alike (Agree H) Eq (goTo k b) (goTo' k b) := by
  obtain ⟨x, hx, -⟩ := h.sound.live_of_mem hl hi
  refine ⟨⟨rfl, fun _ _ h => h⟩, x, payload_of_live hx, ?_, ?_, ?_⟩
  · rw [payload_of_live (hs.live_old hx), Payload.rename_of_fixed fun op hop => instead_of_ne ?_,
      Payload.rename_of_fixed fun _ _ => rfl]
    rintro rfl
    exact hu ((hs.users i).mpr ⟨x, hx, hop⟩)
  · intro d hd
    obtain ⟨z, hz⟩ := Option.isSome_iff_exists.mp (h.wellFormed.operands hx d hd)
    exact lt_size_of_live hz
  · intro d hd
    exact hbranch d (h.wellFormed.reaches_target hc hl hi hx hd)

lemma alike_code (hs : Spills f f' id b pre post us) (h : Spillable f id b pre post)
    (hk : r.program.funcs[k]? = some f)
    (hbranch : ∀ c, f.Reaches c → Alike (Agree [⟨k, f.slots.size⟩]) Eq (goTo k c) (goTo' k c))
    (hcall : ∀ {j : Nat} {g}, r.program.funcs[j]? = some g →
      Alike (Agree [⟨k, f.slots.size⟩]) Eq (goTo j g.entry) (goTo' j g.entry))
    (hspare : ∀ j, r.program.Calls k j → j ≠ k ∧
      ∀ b, Spares [⟨k, f.slots.size⟩] (fun _ => True) (goTo' j b))
    (hc : f.Reaches c) {m : List Id} (hl : f.listing? c = some l) (hm : f'.listing? c = some m) :
    Alike (Agree [⟨k, f.slots.size⟩]) Eq (r.exec goTo { number := k, func := f } l)
      ((r.withFunc k f').exec goTo' { number := k, func := f' } m) := by
  have htracks : Tracks [⟨k, f.slots.size⟩] (fun d : Int => d < f.slots.size) (fun d => d)
      { number := k, func := f } { number := k, func := f' } := by
    refine ⟨rfl, fun d hd => hs.varOf?_eq hd, ?_, fun _ _ => rfl, fun _ _ => Value.clean_nothing _⟩
    intro d v hd hv
    have hb := lt_size_of_varOf? (f := f) (d := d) (by rw [hv]; rfl)
    have : d.toNat ≠ f.slots.size := by omega
    exact ⟨rfl, by simpa using this⟩
  by_cases hcb : c = b
  · subst hcb
    obtain rfl : pre ++ id :: post = l := Option.some.inj (h.here.symm.trans hl)
    rw [hs.listing_here h, Option.some.injEq] at hm
    subst hm
    refine alike_exec_append (hs.similar h hk) hcall htracks
      (fun i hi => hs.exec_apart h hbranch hc hl (by simp [hi]) fun hu => hs.not_mem_pre h hu hi) ?_
    intro vs vs' hvs
    obtain ⟨-, x, hx, hx', hops, htargets⟩ := hs.exec_apart h hbranch hc hl (i := id) (by simp)
      (hs.self_not_mem h)
    refine alike_exec_cons (hs.similar h hk) hvs hx hx' hops htargets hcall ?_
    intro v hv s t hst
    have hvar : (f'.varOf? (f.slots.size : Int)).isSome := by
      rw [hs.vars, if_pos rfl]
      rfl
    have hid : id < f.slots.size := by
      obtain ⟨y, hy, -⟩ := h.produces
      exact lt_size_of_live hy
    have hvals : ∀ d : Int, d < f.slots.size →
        (if d = id then v.getD (vs' d) else vs' d) = if d = id then v.getD (vs d) else vs d := by
      intro d hd
      rw [show vs' d = vs d from hvs.values d hd]
    have hclean : ∀ d : Int, d < f.slots.size →
        (if d = id then v.getD (vs d) else vs d).Clean [⟨k, f.slots.size⟩] := by
      intro d hd
      have hd' := hvs.clean d hd
      cases v with
      | none => simpa using hd'
      | some y =>
        split
        · exact hv y rfl
        · exact hd'
    rw [Activation.set_eq, Activation.set_eq, run_exec_store hs.live_store hvar]
    refine hs.matching_behind h hk hbranch hcall hspare (fun _ hu => hu) hvals hclean ?_ ?_
    · refine (hst.symm.hide (by simp [home]) ?_).symm
      rw [hvals id hid]
      exact hclean id hid
    · rw [store_cells_self, hvals id hid]
  · rw [hs.listing_there h hc hcb, hl, Option.some.injEq] at hm
    subst hm
    rw [← List.append_nil l]
    refine alike_exec_append (hs.similar h hk) hcall htracks (fun i hi => ?_)
      fun _ _ _ => Alike.throw _
    exact hs.exec_apart h hbranch hc hl hi fun hu => hcb (hs.user_behind h hu hc hl hi).1

/-- Spilling a value changes nothing but its variable, in programs where no call leads back to the
function. -/
theorem sameRuns (hs : Spills f f' id b pre post us) (h : Spillable f id b pre post)
    (hk : r.program.funcs[k]? = some f) (hback : ¬ Relation.TransGen r.program.Calls k k) (j : Nat) :
    SameRuns [⟨k, f.slots.size⟩] r (r.withFunc k f') j := by
  have hN : ∀ i, Relation.TransGen r.program.Calls k i → i ≠ k := by
    rintro i hi rfl
    exact hback hi
  have hspares : ∀ n i, Relation.TransGen r.program.Calls k i → ∀ c,
      Spares [⟨k, f.slots.size⟩] (fun _ => True) ((r.withFunc k f').block n i c) := by
    intro n i hi c
    refine spares_block (N := Relation.TransGen r.program.Calls k) ?_ ?_ n hi c
    · intro i hi o ho
      rw [List.mem_singleton.mp ho]
      exact (hN i hi).symm
    · rintro i j hi ⟨g, d, code, u, args, hg, hcode, hu, hp⟩
      rw [withFunc_of_ne (hN i hi)] at hg
      exact hi.tail ⟨g, d, code, u, args, hg, hcode, hu, hp⟩
  refine sameRuns_of_alike (hs.similar h hk) fun n g hg => ?_
  refine alike_withFunc_given (R := f.Reaches) (G := fun goTo' => ∀ i, Relation.TransGen r.program.Calls k i →
    ∀ c, Spares [⟨k, f.slots.size⟩] (fun _ => True) (goTo' i c)) hspares hk (hs.similar h hk)
    (by simp) Relation.ReflTransGen.refl ?_ n j g.entry ?_
  · intro c hc
    obtain ⟨l, hl, -⟩ := h.wellFormed.closes hc
    obtain ⟨m, hm, -⟩ := (hs.wellFormed h).closes ((hs.reaches_iff h).mpr hc)
    refine ⟨l, m, hl, hm, fun goTo goTo' hgo hbranch hcall => ?_⟩
    refine hs.alike_code h hk hbranch hcall (fun i hi => ?_) hc hl hm
    exact ⟨hN i (.single hi), hgo i (.single hi)⟩
  · rintro rfl
    obtain rfl : f = g := Option.some.inj (hk.symm.trans hg)
    exact Relation.ReflTransGen.refl

end

end Spills

end Func

end Accumulator.Flow
