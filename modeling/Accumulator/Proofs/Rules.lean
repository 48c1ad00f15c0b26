import Mathlib
import Accumulator.Flow.Coalesce
import Accumulator.Proofs.Made
import Accumulator.Proofs.WellFormed

/-!
# The rules of coalescing

What a rule that applies does to a function: a window of neighbouring instructions of a block gives
way to a shorter one, and the users of what was removed take a value of the same content instead.
No rule breaks on a sound function in which no store is an operand.
-/

namespace Accumulator.Flow.Func

variable {f f' : Func} {b : BlockId} {code : Array Id}

/-- No live instruction uses a store as an operand. -/
def Storeless (f : Func) : Prop :=
  ∀ {u x}, f.live? u = some x → ∀ d ∈ x.operands, ∀ v src, f.live? d ≠ some (.store v src)

lemma Sound.loadAt (hf : Sound f) (hl : f.listing? b = some code.toList) (i : Nat) :
    f.loadAt code i = .ok none ∨ ∃ l src, code[i]? = some l ∧ f.live? l = some (.load src) ∧
      f.loadAt code i = .ok (some (l, src)) := by
  unfold Func.loadAt
  cases h : code[i]? with
  | none => exact Or.inl rfl
  | some l =>
    obtain ⟨x, hx, -⟩ := hf.live_of_mem hl (Array.mem_toList_iff.mpr (Array.mem_of_getElem? h))
    simp only [payload_of_live hx, ok_bind]
    cases x with
    | load src => exact Or.inr ⟨l, src, rfl, hx, rfl⟩
    | _ => exact Or.inl rfl

lemma Sound.storeAt (hf : Sound f) (hl : f.listing? b = some code.toList) (i : Nat) :
    f.storeAt code i = .ok none ∨ ∃ s v src, code[i]? = some s ∧
      f.live? s = some (.store v src) ∧ f.storeAt code i = .ok (some (s, v, src)) := by
  unfold Func.storeAt
  cases h : code[i]? with
  | none => exact Or.inl rfl
  | some s =>
    obtain ⟨x, hx, -⟩ := hf.live_of_mem hl (Array.mem_toList_iff.mpr (Array.mem_of_getElem? h))
    simp only [payload_of_live hx, ok_bind]
    cases x with
    | store v src => exact Or.inr ⟨s, v, src, rfl, hx, rfl⟩
    | _ => exact Or.inl rfl

/-- A variable of the frame whose users are the given ones, once each. -/
structure UsedBy (f : Func) (v : Id) (us : List Id) : Prop where
  frame : ∃ w, f.varOf? v = some w ∧ w.byRef = false
  users : ∀ {u x}, f.live? u = some x → v ∈ x.operands → u ∈ us

lemma Sound.hasUsers (hf : Sound f) {v : Id} (us : List Id) (hnd : us.Nodup) (hne : us ≠ [])
    (hus : ∀ u ∈ us, ∃ x, f.live? u = some x ∧ v ∈ x.operands) :
    ∃ r, f.hasUsers v us.length = .ok r ∧ (r = true → UsedBy f v us) := by
  obtain ⟨u, hu⟩ := List.exists_mem_of_ne_nil us hne
  obtain ⟨x, hx, hv⟩ := hus u hu
  obtain ⟨s, hs⟩ := Option.isSome_iff_exists.mp (hf.operands hx v hv)
  unfold Func.hasUsers
  rw [var?_eq (by rw [hs]; rfl), ok_bind]
  cases hw : f.varOf? v with
  | none => exact ⟨false, rfl, by simp⟩
  | some w =>
    simp only [refs_of_at? hs, ok_bind]
    refine ⟨_, rfl, fun h => ?_⟩
    simp only [Bool.and_eq_true, Bool.not_eq_true', beq_iff_eq] at h
    refine ⟨⟨w, hw, h.1⟩, fun {u x} hu hv => ?_⟩
    have hsub : us ⊆ s.refs := fun u hu => (hf.mem_refs_iff hs).mpr (hus u hu)
    have hperm := (hnd.subperm hsub).perm_of_length_le h.2.le
    exact hperm.mem_iff.mpr ((hf.mem_refs_iff hs).mpr ⟨x, hu, hv⟩)

lemma drop_getElem? {i : Nat} {a : Id} (h : code[i]? = some a) :
    code.toList.drop i = a :: code.toList.drop (i + 1) := by
  rw [← Array.getElem?_toList] at h
  obtain ⟨hlt, rfl⟩ := List.getElem?_eq_some_iff.mp h
  exact List.drop_eq_getElem_cons hlt

lemma split_code (code : Array Id) (i : Nat) :
    code.toList = code.toList.take i ++ code.toList.drop i := (List.take_append_drop i _).symm

lemma producedBefore_iff {i : Nat} {x : Id} :
    producedBefore code i x = true ↔ ∃ j, i = j + 1 ∧ code[j]? = some x := by
  cases i with
  | zero => simp [producedBefore]
  | succ j => simp [producedBefore]

lemma not_mem_operands_rename {σ : Id → Id} {d : Id} {x : Payload}
    (h : ∀ op ∈ x.operands, σ op ≠ d) : d ∉ (x.rename σ).operands := by
  rw [Payload.operands_rename, List.mem_map]
  rintro ⟨op, hop, rfl⟩
  exact h op hop rfl

lemma instead_ne {old new : Id} (h : new ≠ old) (op : Id) : instead old new op ≠ old := by
  by_cases hop : op = old
  · rw [hop, instead_self]
    exact h
  · rw [instead_of_ne hop]
    exact hop

lemma Storeless.not_operand (hs : Storeless f) {s v src : Id} (h : f.live? s = some (.store v src))
    {u : Id} {x : Payload} (hx : f.live? u = some x) : s ∉ x.operands :=
  fun hmem => hs hx s hmem v src h

/-- `store v, x` and a later `l = load v` are dropped, and the users of `l` take `x`. -/
lemma Sound.drop (hf : Sound f) (hst : Storeless f) (mid : List Id) {pre post : List Id}
    {x s l v : Id}
    (hc : f.listing? b = some (pre ++ x :: s :: (mid ++ l :: post)))
    (hs : f.live? s = some (.store v x)) :
    ∃ f₁ f₂ f', f.replaceUses l x = .ok f₁ ∧ f₁.erase l = .ok f₂ ∧ f₂.erase s = .ok f' ∧
      Becomes f f' (fun j => if j = s ∨ j = l then none
          else (f.live? j).map (·.rename (instead l x)))
        (Function.update f.listing? b (some (pre ++ x :: (mid ++ post)))) := by
  obtain ⟨hxs, hxl, hsl⟩ : x ≠ s ∧ x ≠ l ∧ s ≠ l := by
    have := hf.nodup hc
    simp [List.nodup_append] at this
    tauto
  obtain ⟨t, ht, -⟩ := hf.code hc l (by simp)
  obtain ⟨tx, htx, -⟩ := hf.code hc x (by simp)
  obtain ⟨f₁, h₁, -, hb₁⟩ := hf.replaceUses_becomes ht (Or.inl (by rw [htx]; rfl))
  have hc₁ : f₁.listing? b = some ((pre ++ x :: s :: mid) ++ l :: post) := by
    rw [hb₁.code, hc]
    simp
  obtain ⟨f₂, h₂, -, hb₂⟩ := hb₁.sound.erase_becomes hc₁ (by
    intro u y hy
    rw [hb₁.live] at hy
    obtain ⟨z, -, rfl⟩ := Option.map_eq_some_iff.mp hy
    exact not_mem_operands_rename fun op _ => instead_ne hxl op)
  have hc₂ : f₂.listing? b = some ((pre ++ [x]) ++ s :: (mid ++ post)) := by
    rw [hb₂.code]
    simp
  obtain ⟨f₃, h₃, -, hb₃⟩ := hb₂.sound.erase_becomes hc₂ (by
    intro u y hy
    rw [hb₂.live, Function.update_apply] at hy
    split at hy
    · simp at hy
    · rw [hb₁.live] at hy
      obtain ⟨z, hz, rfl⟩ := Option.map_eq_some_iff.mp hy
      refine not_mem_operands_rename fun op hop heq => ?_
      have hops : op ≠ s := fun h => hst.not_operand hs hz (h ▸ hop)
      unfold instead at heq
      split at heq
      · exact hxs heq
      · exact hops heq)
  refine ⟨f₁, f₂, f₃, h₁, h₂, h₃, ((hb₁.trans hb₂).trans hb₃).congr (fun j => ?_) fun c => ?_⟩
  · rw [Function.update_apply, hb₂.live, Function.update_apply, hb₁.live]
    by_cases hj : j = s <;> by_cases hj' : j = l <;> simp [hj, hj']
  · rw [Function.update_apply, hb₂.code, Function.update_apply, hb₁.code, Function.update_apply]
    by_cases hcb : c = b <;> simp [hcb]

lemma Sound.swap (hf : Sound f) {pre post : List Id} {i j : Id}
    (hc : f.listing? b = some (pre ++ i :: j :: post)) :
    ∃ f₁ f', f.detach i = .ok f₁ ∧ f₁.insertAfter j i = .ok f' ∧
      Becomes f f' f.live? (Function.update f.listing? b (some (pre ++ j :: i :: post))) := by
  obtain ⟨x, hx, hv⟩ := hf.live_of_mem hc (i := i) (by simp)
  have hnot := hf.not_mem_pre hc
  obtain ⟨f₁, h₁, -, hb₁⟩ := hf.detach_becomes hc
  have hc₁ : f₁.listing? b = some (pre ++ j :: post) := by
    rw [hb₁.code, Function.update_self]
  obtain ⟨f₂, h₂, -, hb₂⟩ := hb₁.sound.insertAfter_becomes (i := i) ((hb₁.live i).trans hx) hv (by
    intro c l hl hi
    rw [hb₁.code, Function.update_apply] at hl
    split at hl
    · obtain rfl := Option.some.inj hl
      rcases List.mem_append.mp hi with h | h
      · exact hnot.1 h
      · exact hnot.2 h
    · rename_i hne
      exact hne (hf.block_unique hl hi hc (by simp))) hc₁
  refine ⟨f₁, f₂, h₁, h₂, (hb₁.trans hb₂).congr hb₁.live fun c => ?_⟩
  rw [Function.update_apply, hb₁.code, Function.update_apply, Function.update_apply]
  by_cases hcb : c = b <;> simp [hcb]

/-- A load of a variable into the second register is put in front of an instruction. -/
lemma Sound.insertPair (hf : Sound f) (loc : Position) {pre post : List Id} {i m : Id}
    (hc : f.listing? b = some (pre ++ i :: post)) (hm : (f.at? m).isSome) :
    ∃ f₁ f', f.new loc (.loadPair m) = .ok ((f.slots.size : Int), f₁) ∧
      f₁.insertBefore i f.slots.size = .ok f' ∧
      Becomes f f' (Function.update f.live? (f.slots.size : Int) (some (.loadPair m)))
        (Function.update f.listing? b (some (pre ++ (f.slots.size : Int) :: i :: post))) := by
  obtain ⟨f₁, h₁, -, hb₁⟩ := hf.new_becomes loc (x := .loadPair m) (by simp)
    (by simpa [Payload.operands] using hm)
  obtain ⟨f₂, h₂, -, hb₂⟩ := hb₁.sound.insertBefore_becomes (i := (f.slots.size : Int))
    (by rw [hb₁.live, Function.update_self]) (by simp) (by
      intro c l hl hi
      rw [hb₁.code] at hl
      obtain ⟨s, hs, -⟩ := hf.code hl _ hi
      rw [at?_size_eq_none] at hs
      simp at hs) ((hb₁.code b).trans hc)
  refine ⟨f₁, f₂, h₁, h₂, (hb₁.trans hb₂).congr hb₁.live fun c => ?_⟩
  rw [Function.update_apply, hb₁.code, Function.update_apply]

/-- The names after two loads `a` and `c` gave way to a pair `p` and to `x`. -/
def paired (a c p x : Id) (op : Id) : Id := if op = a then p else if op = c then x else op

lemma comp_instead {a c p x : Id} (hxa : x ≠ a) (hac : a ≠ c) :
    instead a p ∘ instead c x = paired a c p x := by
  funext op
  by_cases h : op = c
  · subst h
    simp [paired, instead_of_ne hxa, hac.symm]
  · by_cases h' : op = a <;> simp [instead, paired, h, h', hac]

lemma instead_comp {a c p x : Id} (hpc : p ≠ c) : instead c x ∘ instead a p = paired a c p x := by
  funext op
  by_cases h : op = a
  · subst h
    simp [paired, instead_of_ne hpc]
  · simp [instead, paired, h]

lemma paired_ne {a c p x d : Id} (hp : p ≠ d) (hx : x ≠ d) {op : Id}
    (h : op = d → d = a ∨ d = c) : paired a c p x op ≠ d := by
  unfold paired
  split
  · exact hp
  · split
    · exact hx
    · intro hd
      rcases h hd with h | h <;> simp_all

lemma Becomes.erase_loads {pre mid post : List Id} {a c p x : Id}
    (h : Becomes f f' (fun j => (f.live? j).map (·.rename (paired a c p x))) f.listing?)
    (hc : f.listing? b = some (pre ++ a :: (mid ++ c :: post)))
    (hpa : p ≠ a) (hpc : p ≠ c) (hxa : x ≠ a) (hxc : x ≠ c) :
    ∃ g g', f'.erase a = .ok g ∧ g.erase c = .ok g' ∧
      Becomes f g' (fun j => if j = a ∨ j = c then none
          else (f.live? j).map (·.rename (paired a c p x)))
        (Function.update f.listing? b (some (pre ++ (mid ++ post)))) := by
  obtain ⟨g, hg, -, hb⟩ := h.sound.erase_becomes ((h.code b).trans hc) (by
    intro u y hy
    rw [h.live] at hy
    obtain ⟨z, -, rfl⟩ := Option.map_eq_some_iff.mp hy
    exact not_mem_operands_rename fun op _ => paired_ne hpa hxa fun _ => Or.inl rfl)
  have hc' : g.listing? b = some ((pre ++ mid) ++ c :: post) := by
    rw [hb.code]
    simp
  obtain ⟨g', hg', -, hb'⟩ := hb.sound.erase_becomes hc' (by
    intro u y hy
    rw [hb.live, Function.update_apply] at hy
    split at hy
    · simp at hy
    · rw [h.live] at hy
      obtain ⟨z, -, rfl⟩ := Option.map_eq_some_iff.mp hy
      exact not_mem_operands_rename fun op _ => paired_ne hpc hxc fun _ => Or.inr rfl)
  refine ⟨g, g', hg, hg', ((h.trans hb).trans hb').congr (fun j => ?_) fun d => ?_⟩
  · rw [Function.update_apply, hb.live, Function.update_apply, h.live]
    by_cases hj : j = c <;> by_cases hj' : j = a <;> simp [hj, hj']
  · rw [Function.update_apply, hb.code, Function.update_apply, h.code, Function.update_apply]
    by_cases hd : d = b <;> simp [hd]

lemma Sound.ne_size (hf : Sound f) {l : List Id} (hl : f.listing? b = some l) {i : Id} (hi : i ∈ l) :
    (f.slots.size : Int) ≠ i := by
  rintro rfl
  obtain ⟨s, hs, -⟩ := hf.code hl _ hi
  rw [at?_size_eq_none] at hs
  simp at hs

lemma Sound.var_ne (hf : Sound f) {l : List Id} (hl : f.listing? b = some l) {i m : Id} (hi : i ∈ l)
    (hm : (f.varOf? m).isSome) : m ≠ i := by
  rintro rfl
  obtain ⟨x, hx, hv⟩ := hf.live_of_mem hl hi
  rw [varOf?_of_live hx, Payload.asVar_eq_none.mpr hv] at hm
  simp at hm

lemma Becomes.at?_isSome {live : Id → Option Payload} {code : BlockId → Option (List Id)}
    (h : Becomes f f' live code) {i : Id} {x : Payload} (hx : live i = some x) :
    (f'.at? i).isSome :=
  at?_isSome_of_live ((h.live i).trans hx)

lemma Becomes.live_of_mem {code : BlockId → Option (List Id)} {y : Payload} {l : List Id} {i : Id}
    (h : Becomes f f' (Function.update f.live? (f.slots.size : Int) (some y)) code) (hf : Sound f)
    (hl : f.listing? b = some l) (hi : i ∈ l) : ∃ z, f'.live? i = some z := by
  obtain ⟨z, hz, -⟩ := hf.live_of_mem hl hi
  exact ⟨z, by rw [h.live, Function.update_of_ne (hf.ne_size hl hi).symm, hz]⟩

lemma Sound.pair (hf : Sound f) (hst : Storeless f) (loc : Position) {pre post : List Id}
    {x s a c v m : Id} (hc : f.listing? b = some (pre ++ x :: s :: a :: c :: post))
    (hs : f.live? s = some (.store v x)) (hm : (f.varOf? m).isSome) :
    ∃ f₁ f₂ f₃ f₄ f₅ f₆ f' : Func, f.new loc (.loadPair m) = .ok ((f.slots.size : Int), f₁) ∧
      f₁.insertBefore c f.slots.size = .ok f₂ ∧ f₂.replaceUses c x = .ok f₃ ∧
      f₃.replaceUses a f.slots.size = .ok f₄ ∧ f₄.erase a = .ok f₅ ∧ f₅.erase c = .ok f₆ ∧
      f₆.erase s = .ok f' ∧
      Becomes f f'
        (Function.update (fun j => if j = s ∨ j = a ∨ j = c then none
          else (f.live? j).map (·.rename (paired a c f.slots.size x)))
          (f.slots.size : Int) (some (.loadPair m)))
        (Function.update f.listing? b (some (pre ++ x :: (f.slots.size : Int) :: post))) := by
  set p : Id := (f.slots.size : Int) with hp
  obtain ⟨hxs, hxa, hxc, hsa, hsc, hac⟩ :
      x ≠ s ∧ x ≠ a ∧ x ≠ c ∧ s ≠ a ∧ s ≠ c ∧ a ≠ c := by
    have := hf.nodup hc
    simp [List.nodup_append] at this
    tauto
  have hpx : p ≠ x := hf.ne_size hc (by simp)
  have hps : p ≠ s := hf.ne_size hc (by simp)
  have hpa : p ≠ a := hf.ne_size hc (by simp)
  have hpc : p ≠ c := hf.ne_size hc (by simp)
  have hma : m ≠ a := hf.var_ne hc (by simp) hm
  have hmc : m ≠ c := hf.var_ne hc (by simp) hm
  have hc₁ : f.listing? b = some ((pre ++ [x, s, a]) ++ c :: post) := by
    rw [hc]
    simp
  obtain ⟨f₁, f₂, h₁, h₂, hb₂⟩ := hf.insertPair loc hc₁ (at?_of_varOf? hm)
  rw [← hp] at h₁ h₂ hb₂
  obtain ⟨yc, hyc⟩ := hb₂.live_of_mem hf hc (i := c) (by simp)
  obtain ⟨yx, hyx⟩ := hb₂.live_of_mem hf hc (i := x) (by simp)
  obtain ⟨ya, hya⟩ := hb₂.live_of_mem hf hc (i := a) (by simp)
  obtain ⟨tc, htc⟩ := Option.isSome_iff_exists.mp (at?_isSome_of_live hyc)
  obtain ⟨f₃, h₃, -, hb₃⟩ :=
    hb₂.sound.replaceUses_becomes htc (Or.inl (at?_isSome_of_live hyx))
  obtain ⟨ta, hta⟩ := Option.isSome_iff_exists.mp
    (hb₃.at?_isSome (i := a) (by rw [hya]; rfl))
  obtain ⟨f₄, h₄, -, hb₄⟩ := hb₃.sound.replaceUses_becomes hta (Or.inl
    (hb₃.at?_isSome (i := p) (by rw [hb₂.live, Function.update_self]; rfl)))
  have hb₂₄ : Becomes f₂ f₄ (fun j => (f₂.live? j).map (·.rename (paired a c p x))) f₂.listing? := by
    refine (hb₃.trans hb₄).congr (fun j => ?_) hb₃.code
    rw [hb₃.live, Option.map_map]
    congr 1
    funext y
    simp only [Function.comp_apply, Payload.rename_rename, comp_instead hxa hac]
  have hc₂ : f₂.listing? b = some ((pre ++ [x, s]) ++ a :: ([p] ++ c :: post)) := by
    rw [hb₂.code, Function.update_self]
    simp
  obtain ⟨f₅, f₆, h₅, h₆, hb₆⟩ := hb₂₄.erase_loads hc₂ hpa hpc hxa hxc
  have hc₆ : f₆.listing? b = some ((pre ++ [x]) ++ s :: p :: post) := by
    rw [hb₆.code, Function.update_self]
    simp
  obtain ⟨f₇, h₇, -, hb₇⟩ := hb₆.sound.erase_becomes hc₆ (by
    intro u y hy
    rw [hb₆.live] at hy
    split at hy
    · simp at hy
    · rw [hb₂.live, Function.update_apply] at hy
      split at hy
      · obtain rfl : (Payload.loadPair m).rename _ = y := by simpa using hy
        refine not_mem_operands_rename fun op hop => paired_ne hps hxs fun h => ?_
        obtain rfl : op = m := by simpa [Payload.operands] using hop
        exact absurd h (hf.var_ne hc (by simp) hm)
      · obtain ⟨z, hz, rfl⟩ := Option.map_eq_some_iff.mp hy
        refine not_mem_operands_rename fun op hop => paired_ne hps hxs fun h => ?_
        exact absurd (h ▸ hop) (hst.not_operand hs hz))
  refine ⟨f₁, f₂, f₃, f₄, f₅, f₆, f₇, h₁, h₂, h₃, h₄, h₅, h₆, h₇,
    ((hb₂.trans hb₆).trans hb₇).congr (fun j => ?_) fun d => ?_⟩
  · rw [Function.update_apply, Function.update_apply, hb₆.live, hb₂.live, Function.update_apply]
    by_cases hjp : j = p
    · subst hjp
      have hfix : (Payload.loadPair m).rename (paired a c p x) = .loadPair m :=
        Payload.rename_of_fixed (by simp [Payload.operands, paired, hma, hmc])
      simp [hps, hpa, hpc, hfix]
    · by_cases hjs : j = s <;> simp [hjs, hjp, hps.symm]
  · rw [Function.update_apply, hb₆.code, Function.update_apply, hb₂.code, Function.update_apply,
      Function.update_apply]
    by_cases hd : d = b <;> simp [hd]

lemma Sound.double (hf : Sound f) (loc : Position) {pre post : List Id}
    {x s a c v : Id} (hc : f.listing? b = some (pre ++ x :: s :: a :: c :: post))
    (hs : f.live? s = some (.store v x)) (hv : (f.varOf? v).isSome) :
    ∃ f₁ f₂ f₃ f₄ f₅ f' : Func, f.new loc (.loadPair v) = .ok ((f.slots.size : Int), f₁) ∧
      f₁.insertBefore a f.slots.size = .ok f₂ ∧ f₂.replaceUses a f.slots.size = .ok f₃ ∧
      f₃.payload s = .ok (.store v x) ∧ f₃.replaceUses c x = .ok f₄ ∧ f₄.erase a = .ok f₅ ∧
      f₅.erase c = .ok f' ∧
      Becomes f f'
        (Function.update (fun j => if j = a ∨ j = c then none
          else (f.live? j).map (·.rename (paired a c f.slots.size x)))
          (f.slots.size : Int) (some (.loadPair v)))
        (Function.update f.listing? b (some (pre ++ x :: s :: (f.slots.size : Int) :: post))) := by
  set p : Id := (f.slots.size : Int) with hp
  obtain ⟨hxs, hxa, hxc, hsa, hsc, hac⟩ :
      x ≠ s ∧ x ≠ a ∧ x ≠ c ∧ s ≠ a ∧ s ≠ c ∧ a ≠ c := by
    have := hf.nodup hc
    simp [List.nodup_append] at this
    tauto
  have hps : p ≠ s := hf.ne_size hc (by simp)
  have hpa : p ≠ a := hf.ne_size hc (by simp)
  have hpc : p ≠ c := hf.ne_size hc (by simp)
  have hva : v ≠ a := hf.var_ne hc (by simp) hv
  have hvc : v ≠ c := hf.var_ne hc (by simp) hv
  have hc₁ : f.listing? b = some ((pre ++ [x, s]) ++ a :: c :: post) := by
    rw [hc]
    simp
  obtain ⟨f₁, f₂, h₁, h₂, hb₂⟩ := hf.insertPair loc hc₁ (at?_of_varOf? hv)
  rw [← hp] at h₁ h₂ hb₂
  obtain ⟨yc, hyc⟩ := hb₂.live_of_mem hf hc (i := c) (by simp)
  obtain ⟨yx, hyx⟩ := hb₂.live_of_mem hf hc (i := x) (by simp)
  obtain ⟨ya, hya⟩ := hb₂.live_of_mem hf hc (i := a) (by simp)
  obtain ⟨ta, hta⟩ := Option.isSome_iff_exists.mp (at?_isSome_of_live hya)
  have htp : (f₂.at? p).isSome := hb₂.at?_isSome (Function.update_self _ _ _)
  obtain ⟨f₃, h₃, -, hb₃⟩ := hb₂.sound.replaceUses_becomes hta (Or.inl htp)
  have hs₃ : f₃.live? s = some (.store v x) := by
    rw [hb₃.live, hb₂.live, Function.update_of_ne hps.symm, hs, Option.map_some]
    refine congrArg some (Payload.rename_of_fixed ?_)
    simp [Payload.operands, instead_of_ne hva, instead_of_ne hxa]
  obtain ⟨tc, htc⟩ := Option.isSome_iff_exists.mp
    (hb₃.at?_isSome (i := c) (by rw [hyc]; rfl))
  obtain ⟨f₄, h₄, -, hb₄⟩ := hb₃.sound.replaceUses_becomes htc (Or.inl
    (hb₃.at?_isSome (i := x) (by rw [hyx]; rfl)))
  have hb₂₄ : Becomes f₂ f₄ (fun j => (f₂.live? j).map (·.rename (paired a c p x))) f₂.listing? := by
    refine (hb₃.trans hb₄).congr (fun j => ?_) hb₃.code
    rw [hb₃.live, Option.map_map]
    congr 1
    funext y
    simp only [Function.comp_apply, Payload.rename_rename, instead_comp hpc]
  have hc₂ : f₂.listing? b = some ((pre ++ [x, s, p]) ++ a :: ([] ++ c :: post)) := by
    rw [hb₂.code, Function.update_self]
    simp
  obtain ⟨f₅, f₆, h₅, h₆, hb₆⟩ := hb₂₄.erase_loads hc₂ hpa hpc hxa hxc
  refine ⟨f₁, f₂, f₃, f₄, f₅, f₆, h₁, h₂, h₃, payload_of_live hs₃, h₄, h₅, h₆,
    (hb₂.trans hb₆).congr (fun j => ?_) fun d => ?_⟩
  · rw [hb₂.live, Function.update_apply, Function.update_apply]
    by_cases hjp : j = p
    · subst hjp
      have hfix : (Payload.loadPair v).rename (paired a c p x) = .loadPair v :=
        Payload.rename_of_fixed (by simp [Payload.operands, paired, hva, hvc])
      simp [hpa, hpc, hfix]
    · simp [hjp]
  · rw [Function.update_apply, hb₂.code, Function.update_apply, Function.update_apply]
    by_cases hd : d = b <;> simp [hd]

/-- A window of the code of a block gave way to another one, and operands were renamed. -/
structure Window (f f' : Func) (b : BlockId) (pre mid mid' post : List Id) (σ : Id → Id) :
    Prop where
  frame : SameFrame f f'
  sound : Sound f'
  vars : ∀ j, f'.varOf? j = f.varOf? j
  blocks : f'.blocks.size = f.blocks.size
  before : f.listing? b = some (pre ++ (mid ++ post))
  after : ∀ c, f'.listing? c = Function.update f.listing? b (some (pre ++ (mid' ++ post))) c
  fixed : ∀ j, j ∉ mid → σ j = j
  outside : ∀ j, j ∉ mid → j ∉ mid' → f'.live? j = (f.live? j).map (·.rename σ)
  erased : ∀ j ∈ mid, j ∉ mid' → f'.live? j = none
  fresh : ∀ j ∈ mid', j ∈ mid ∨ f.at? j = none

/-- The windows of the rules. What was stored to `v` is still at hand as `x`. -/
inductive Shape (f f' : Func) : (v : Id) → (pre mid mid' : List Id) → (Id → Id) → Prop where
  | drop {pre : List Id} {v x s l : Id} :
    f.live? s = some (.store v x) → f.live? l = some (.load v) → UsedBy f v [s, l] →
    Shape f f' v (pre ++ [x]) [s, l] [] (instead l x)
  | swap {pre : List Id} {v x y s l₁ l₂ l₃ : Id} :
    f.live? l₁ = some (.load x) → f.live? s = some (.store v l₁) → f.live? l₂ = some (.load y) →
    f.live? l₃ = some (.load v) → (f.varOf? x).isSome → (f.varOf? y).isSome → y ≠ v →
    UsedBy f v [s, l₃] → f'.live? l₁ = some (.load x) → f'.live? l₂ = some (.load y) →
    Shape f f' v pre [l₁, s, l₂, l₃] [l₂, l₁] (instead l₃ l₁)
  | pair {pre : List Id} {v x m s a c p : Id} :
    f.live? s = some (.store v x) → f.live? a = some (.load m) → f.live? c = some (.load v) →
    (f.varOf? m).isSome → m ≠ v → UsedBy f v [s, c] → f'.live? p = some (.loadPair m) →
    f.at? p = none → Shape f f' v (pre ++ [x]) [s, a, c] [p] (paired a c p x)
  | double {pre : List Id} {v x s a c p : Id} :
    f.live? s = some (.store v x) → f.live? a = some (.load v) → f.live? c = some (.load v) →
    UsedBy f v [s, a, c] → f'.live? s = some (.store v x) → f'.live? p = some (.loadPair v) →
    f.at? p = none → Shape f f' v (pre ++ [x]) [s, a, c] [s, p] (paired a c p x)

/-- A rule was applied in block `b`. -/
def Rewrites (f f' : Func) (b : BlockId) : Prop :=
  ∃ v pre mid mid' post σ, Window f f' b pre mid mid' post σ ∧ Shape f f' v pre mid mid' σ

/-- A rule that never breaks, and rewrites where it applies. -/
def Safe (f : Func) (b : BlockId) (r : Except Fault (Option Func)) : Prop :=
  ∃ o, r = .ok o ∧ ∀ f', o = some f' → Rewrites f f' b

lemma Safe.none : Safe f b (.ok none) := ⟨Option.none, rfl, by simp⟩

lemma Sound.drop_rewrites (hf : Sound f) (hst : Storeless f) {pre post : List Id} {x s l v : Id}
    (hc : f.listing? b = some (pre ++ x :: s :: l :: post))
    (hs : f.live? s = some (.store v x)) (hl : f.live? l = some (.load v))
    (hv : UsedBy f v [s, l]) :
    Safe f b (do return some (← (← (← f.replaceUses l x).erase l).erase s)) := by
  obtain ⟨f₁, f₂, f', h₁, h₂, h₃, hb⟩ := hf.drop hst [] hc hs
  refine ⟨some f', by simp [h₁, h₂, h₃], fun g hg => ?_⟩
  obtain rfl : f' = g := Option.some.inj hg
  refine ⟨v, pre ++ [x], [s, l], [], post, instead l x, ?_, Shape.drop hs hl hv⟩
  refine ⟨hb.frame, hb.sound, hb.vars, hb.blocks, by simpa using hc, ?_, ?_, ?_, ?_, by simp⟩
  · simpa using hb.code
  · intro j hj
    exact instead_of_ne (by simp at hj; tauto)
  · intro j hj _
    rw [hb.live, if_neg (by simpa using hj)]
  · intro j hj _
    rw [hb.live, if_pos (by simpa using hj)]

lemma Sound.swap_rewrites (hf : Sound f) (hst : Storeless f) {pre post : List Id}
    {x y s l₁ l₂ l₃ v : Id} (hc : f.listing? b = some (pre ++ l₁ :: s :: l₂ :: l₃ :: post))
    (h₁ : f.live? l₁ = some (.load x)) (hs : f.live? s = some (.store v l₁))
    (h₂ : f.live? l₂ = some (.load y)) (h₃ : f.live? l₃ = some (.load v))
    (hx : (f.varOf? x).isSome) (hy : (f.varOf? y).isSome) (hyv : y ≠ v) (hv : UsedBy f v [s, l₃]) :
    Safe f b (do
      let f ← (← (← f.replaceUses l₃ l₁).erase l₃).erase s
      return some (← (← f.detach l₁).insertAfter l₂ l₁)) := by
  obtain ⟨f₁, f₂, f₃, e₁, e₂, e₃, hb₃⟩ := hf.drop hst [l₂] hc hs
  have hc₃ : f₃.listing? b = some (pre ++ l₁ :: l₂ :: post) := by
    rw [hb₃.code, Function.update_self]
    rfl
  obtain ⟨f₄, f', e₄, e₅, hb₅⟩ := hb₃.sound.swap hc₃
  have hb := hb₃.trans hb₅
  obtain ⟨hs₁, hs₂, h13, h23⟩ : l₁ ≠ s ∧ l₂ ≠ s ∧ l₁ ≠ l₃ ∧ l₂ ≠ l₃ := by
    have := hf.nodup hc
    simp [List.nodup_append] at this
    tauto
  have hlive : ∀ {i z : Id}, i ≠ s → i ≠ l₃ → f.live? i = some (.load z) → (f.varOf? z).isSome →
      f'.live? i = some (.load z) := by
    intro i z his hi3 hi hz
    rw [hb.live, hb₃.live, if_neg (by tauto), hi, Option.map_some]
    refine congrArg some (Payload.rename_of_fixed ?_)
    simp [Payload.operands, instead_of_ne (hf.var_ne hc (i := l₃) (by simp) hz)]
  refine ⟨some f', by simp [e₁, e₂, e₃, e₄, e₅], fun g hg => ?_⟩
  obtain rfl : f' = g := Option.some.inj hg
  refine ⟨v, pre, [l₁, s, l₂, l₃], [l₂, l₁], post, instead l₃ l₁, ?_,
    Shape.swap h₁ hs h₂ h₃ hx hy hyv hv (hlive hs₁ h13 h₁ hx) (hlive hs₂ h23 h₂ hy)⟩
  refine ⟨hb.frame, hb.sound, hb.vars, hb.blocks, by simpa using hc, ?_, ?_, ?_, ?_, ?_⟩
  · intro c
    rw [hb.code, Function.update_apply, Function.update_apply, hb₃.code, Function.update_apply]
    by_cases hcb : c = b <;> simp [hcb]
  · intro j hj
    exact instead_of_ne (by simp at hj; tauto)
  · intro j hj _
    rw [hb.live, hb₃.live, if_neg (by simp at hj; tauto)]
  · intro j hj hj'
    rw [hb.live, hb₃.live, if_pos (by simp at hj hj'; tauto)]
  · intro j hj
    left
    simp at hj ⊢
    tauto

lemma Sound.pair_rewrites (hf : Sound f) (hst : Storeless f) (loc : Position)
    {pre post : List Id} {x s a c v m : Id}
    (hc : f.listing? b = some (pre ++ x :: s :: a :: c :: post))
    (hs : f.live? s = some (.store v x)) (ha : f.live? a = some (.load m))
    (hl : f.live? c = some (.load v)) (hm : (f.varOf? m).isSome) (hmv : m ≠ v)
    (hv : UsedBy f v [s, c]) :
    Safe f b (do
      let (p, f) ← f.new loc (.loadPair m)
      let f ← f.insertBefore c p
      let f ← (← f.replaceUses c x).replaceUses a p
      return some (← (← (← f.erase a).erase c).erase s)) := by
  obtain ⟨f₁, f₂, f₃, f₄, f₅, f₆, f', e₁, e₂, e₃, e₄, e₅, e₆, e₇, hb⟩ := hf.pair hst loc hc hs hm
  have hne : ∀ {i : Id}, i ∈ pre ++ x :: s :: a :: c :: post → i ≠ f.slots.size :=
    fun hi => (hf.ne_size hc hi).symm
  refine ⟨some f', by simp [e₁, e₂, e₃, e₄, e₅, e₆, e₇], fun g hg => ?_⟩
  obtain rfl : f' = g := Option.some.inj hg
  refine ⟨v, pre ++ [x], [s, a, c], [(f.slots.size : Int)], post, paired a c f.slots.size x, ?_,
    Shape.pair hs ha hl hm hmv hv (by rw [hb.live, Function.update_self]) (at?_size_eq_none f)⟩
  refine ⟨hb.frame, hb.sound, hb.vars, hb.blocks, by simpa using hc, ?_, ?_, ?_, ?_, ?_⟩
  · simpa using hb.code
  · intro j hj
    simp at hj
    simp [paired, hj]
  · intro j hj hj'
    rw [hb.live, Function.update_of_ne (by simpa using hj'), if_neg (by simpa using hj)]
  · intro j hj hj'
    rw [hb.live, Function.update_of_ne (by simpa using hj'), if_pos (by simpa using hj)]
  · intro j hj
    right
    obtain rfl : j = f.slots.size := by simpa using hj
    exact at?_size_eq_none f

lemma Sound.double_rewrites (hf : Sound f) (loc : Position)
    {pre post : List Id} {x s a c v : Id}
    (hc : f.listing? b = some (pre ++ x :: s :: a :: c :: post))
    (hs : f.live? s = some (.store v x)) (ha : f.live? a = some (.load v))
    (hl : f.live? c = some (.load v)) (hv : UsedBy f v [s, a, c]) :
    Safe f b (do
      let (p, f) ← f.new loc (.loadPair v)
      let f ← (← f.insertBefore a p).replaceUses a p
      match ← f.payload s with
      | .store _ x =>
        let f ← f.replaceUses c x
        return some (← (← f.erase a).erase c)
      | _ => return none) := by
  obtain ⟨w, hw, -⟩ := hv.frame
  have hvar : (f.varOf? v).isSome := by rw [hw]; rfl
  obtain ⟨f₁, f₂, f₃, f₄, f₅, f', e₁, e₂, e₃, e₄, e₅, e₆, e₇, hb⟩ := hf.double loc hc hs hvar
  have hps : (f.slots.size : Int) ≠ s := hf.ne_size hc (by simp)
  obtain ⟨hxa, hxc, hsa, hsc⟩ : x ≠ a ∧ x ≠ c ∧ s ≠ a ∧ s ≠ c := by
    have := hf.nodup hc
    simp [List.nodup_append] at this
    tauto
  have hs' : f'.live? s = some (.store v x) := by
    rw [hb.live, Function.update_of_ne hps.symm, if_neg (by tauto), hs, Option.map_some]
    refine congrArg some (Payload.rename_of_fixed ?_)
    have hva : v ≠ a := hf.var_ne hc (by simp) hvar
    have hvc : v ≠ c := hf.var_ne hc (by simp) hvar
    simp [Payload.operands, paired, hva, hvc, hxa, hxc]
  refine ⟨some f', by simp [e₁, e₂, e₃, e₄, e₅, e₆, e₇], fun g hg => ?_⟩
  obtain rfl : f' = g := Option.some.inj hg
  refine ⟨v, pre ++ [x], [s, a, c], [s, (f.slots.size : Int)], post, paired a c f.slots.size x, ?_,
    Shape.double hs ha hl hv hs' (by rw [hb.live, Function.update_self]) (at?_size_eq_none f)⟩
  refine ⟨hb.frame, hb.sound, hb.vars, hb.blocks, by simpa using hc, ?_, ?_, ?_, ?_, ?_⟩
  · simpa using hb.code
  · intro j hj
    simp at hj
    simp [paired, hj]
  · intro j hj hj'
    simp at hj hj'
    rw [hb.live, Function.update_of_ne hj'.2, if_neg (by tauto)]
  · intro j hj hj'
    simp at hj hj'
    rw [hb.live, Function.update_of_ne hj'.2, if_pos (by tauto)]
  · intro j hj
    rcases List.mem_cons.mp hj with rfl | hj
    · exact Or.inl (by simp)
    · right
      obtain rfl : j = f.slots.size := by simpa using hj
      exact at?_size_eq_none f

lemma Safe.ite {c : Prop} [Decidable c] {r : Except Fault (Option Func)}
    (h : c → Safe f b r) : Safe f b (if c then r else pure Option.none) := by
  split
  · exact h ‹c›
  · exact Safe.none

lemma Safe.guard {x : Except Fault Bool} {p : Prop} {r : Except Fault (Option Func)}
    (hx : ∃ y, x = .ok y ∧ (y = true → p)) (h : p → Safe f b r) :
    Safe f b (do if ← x then r else pure Option.none) := by
  obtain ⟨y, rfl, hy⟩ := hx
  exact Safe.ite fun hc => h (hy hc)

lemma mem_operands_store {v x : Id} : v ∈ (Payload.store v x).operands := by simp [Payload.operands]

lemma mem_operands_load {v : Id} : v ∈ (Payload.load v).operands := by simp [Payload.operands]

lemma Sound.hasUsers_two (hf : Sound f) {v x s l : Id} (hs : f.live? s = some (.store v x))
    (hl : f.live? l = some (.load v)) :
    ∃ r, f.hasUsers v 2 = .ok r ∧ (r = true → UsedBy f v [s, l]) := by
  refine hf.hasUsers [s, l] ?_ (by simp) ?_
  · simp only [List.nodup_cons, List.mem_singleton, List.not_mem_nil, not_false_eq_true,
      List.nodup_nil, and_true]
    rintro rfl
    simp [hs] at hl
  · rintro u hu
    rcases List.mem_pair.mp hu with rfl | rfl
    · exact ⟨_, hs, mem_operands_store⟩
    · exact ⟨_, hl, mem_operands_load⟩

lemma Sound.var?_operand (hf : Sound f) {u d : Id} {x : Payload} (hx : f.live? u = some x)
    (hd : d ∈ x.operands) : f.var? d = .ok (f.varOf? d) :=
  var?_eq (hf.operands hx d hd)

lemma forward_proper (hf : Sound f) (hst : Storeless f) (hc : f.listing? b = some code.toList)
    (i : Nat) : Safe f b (forward f code i) := by
  unfold forward
  rcases hf.loadAt hc i with h₁ | ⟨l, src, i₁, e₁, h₁⟩ <;>
    rcases hf.storeAt hc (i + 1) with h₂ | ⟨s, v, x, i₂, e₂, h₂⟩ <;>
    rcases hf.loadAt hc (i + 2) with h₃ | ⟨m, w, i₃, e₃, h₃⟩ <;>
    simp only [h₁, h₂, h₃, ok_bind] <;> try exact Safe.none
  refine Safe.ite ?_
  rintro ⟨rfl, rfl⟩
  refine Safe.guard (hf.hasUsers_two e₂ e₃) fun hv => ?_
  rw [split_code code i, drop_getElem? i₁, drop_getElem? i₂, drop_getElem? i₃] at hc
  exact hf.drop_rewrites hst hc e₂ e₃ hv

lemma reorder_proper (hf : Sound f) (hst : Storeless f) (hc : f.listing? b = some code.toList)
    (i : Nat) : Safe f b (reorder f code i) := by
  unfold reorder
  rcases hf.loadAt hc i with h₁ | ⟨l₁, x, i₁, e₁, h₁⟩ <;>
    rcases hf.storeAt hc (i + 1) with h₂ | ⟨s, v, src, i₂, e₂, h₂⟩ <;>
    rcases hf.loadAt hc (i + 2) with h₃ | ⟨l₂, y, i₃, e₃, h₃⟩ <;>
    rcases hf.loadAt hc (i + 3) with h₄ | ⟨l₃, w, i₄, e₄, h₄⟩ <;>
    simp only [h₁, h₂, h₃, h₄, ok_bind] <;> try exact Safe.none
  refine Safe.ite ?_
  rintro ⟨rfl, rfl, hyv⟩
  refine Safe.guard (hf.hasUsers_two e₂ e₄) fun hv => ?_
  rw [hf.var?_operand e₁ mem_operands_load, hf.var?_operand e₃ mem_operands_load]
  refine Safe.ite fun hx => Safe.ite fun hy => ?_
  rw [split_code code i, drop_getElem? i₁, drop_getElem? i₂, drop_getElem? i₃,
    drop_getElem? i₄] at hc
  exact hf.swap_rewrites hst hc e₁ e₂ e₃ e₄ hx hy hyv hv

lemma split_produced {i : Nat} {x : Id} (h : producedBefore code i x = true) :
    ∃ pre, code.toList = pre ++ x :: code.toList.drop i := by
  obtain ⟨j, rfl, hj⟩ := producedBefore_iff.mp h
  exact ⟨code.toList.take j, by rw [← drop_getElem? hj, List.take_append_drop]⟩

lemma storeLoadStore_proper (hf : Sound f) (hst : Storeless f)
    (hc : f.listing? b = some code.toList) (i : Nat) : Safe f b (storeLoadStore f code i) := by
  unfold storeLoadStore
  rcases hf.storeAt hc i with h₁ | ⟨s, v, x, i₁, e₁, h₁⟩ <;>
    rcases hf.loadAt hc (i + 1) with h₂ | ⟨l, w, i₂, e₂, h₂⟩ <;>
    rcases hf.storeAt hc (i + 2) with h₃ | ⟨t, d, src, i₃, e₃, h₃⟩ <;>
    simp only [h₁, h₂, h₃, ok_bind] <;> try exact Safe.none
  refine Safe.ite ?_
  rintro ⟨hx, rfl, rfl⟩
  rw [hf.var?_operand e₃ mem_operands_store]
  refine Safe.ite fun _ => Safe.guard (hf.hasUsers_two e₁ e₂) fun hv => ?_
  obtain ⟨pre, hpre⟩ := split_produced hx
  rw [hpre, drop_getElem? i₁, drop_getElem? i₂] at hc
  exact hf.drop_rewrites hst hc e₁ e₂ hv

lemma roundTrip_proper (hf : Sound f) (hst : Storeless f) (hc : f.listing? b = some code.toList)
    (i : Nat) : Safe f b (roundTrip f code i) := by
  unfold roundTrip
  rcases hf.storeAt hc i with h₁ | ⟨s, v, x, i₁, e₁, h₁⟩ <;>
    rcases hf.loadAt hc (i + 1) with h₂ | ⟨l, w, i₂, e₂, h₂⟩ <;>
    simp only [h₁, h₂, ok_bind] <;> try exact Safe.none
  refine Safe.ite ?_
  rintro ⟨hx, rfl⟩
  refine Safe.guard (hf.hasUsers_two e₁ e₂) fun hv => ?_
  obtain ⟨pre, hpre⟩ := split_produced hx
  rw [hpre, drop_getElem? i₁, drop_getElem? i₂] at hc
  exact hf.drop_rewrites hst hc e₁ e₂ hv

lemma slot_of_live {i : Id} {x : Payload} (h : f.live? i = some x) : ∃ s, f.slot i = .ok s := by
  obtain ⟨s, hs, -⟩ := live?_eq_some.mp h
  exact ⟨s, slot_eq_ok.mpr hs⟩

lemma loadPair_proper (hf : Sound f) (hst : Storeless f) (hc : f.listing? b = some code.toList)
    (i : Nat) : Safe f b (loadPair f code i) := by
  unfold loadPair
  rcases hf.storeAt hc i with h₁ | ⟨s, v, x, i₁, e₁, h₁⟩ <;>
    rcases hf.loadAt hc (i + 1) with h₂ | ⟨a, m, i₂, e₂, h₂⟩ <;>
    rcases hf.loadAt hc (i + 2) with h₃ | ⟨c, w, i₃, e₃, h₃⟩ <;>
    simp only [h₁, h₂, h₃, ok_bind] <;> try exact Safe.none
  refine Safe.ite ?_
  rintro ⟨hx, rfl, hmv⟩
  rw [hf.var?_operand e₂ mem_operands_load]
  refine Safe.ite fun hm => Safe.guard (hf.hasUsers_two e₁ e₃) fun hv => ?_
  obtain ⟨pre, hpre⟩ := split_produced hx
  obtain ⟨t, ht⟩ := slot_of_live e₂
  rw [hpre, drop_getElem? i₁, drop_getElem? i₂, drop_getElem? i₃] at hc
  rw [ht, ok_bind]
  exact hf.pair_rewrites hst t.loc hc e₁ e₂ e₃ hm hmv hv

lemma doubleReload_proper (hf : Sound f) (hc : f.listing? b = some code.toList)
    (i : Nat) : Safe f b (doubleReload f code i) := by
  unfold doubleReload
  rcases hf.storeAt hc i with h₁ | ⟨s, v, x, i₁, e₁, h₁⟩ <;>
    rcases hf.loadAt hc (i + 1) with h₂ | ⟨a, m, i₂, e₂, h₂⟩ <;>
    rcases hf.loadAt hc (i + 2) with h₃ | ⟨c, w, i₃, e₃, h₃⟩ <;>
    simp only [h₁, h₂, h₃, ok_bind] <;> try exact Safe.none
  refine Safe.ite ?_
  rintro ⟨hx, rfl, rfl⟩
  obtain ⟨pre, hpre⟩ := split_produced hx
  obtain ⟨t, ht⟩ := slot_of_live e₂
  rw [hpre, drop_getElem? i₁, drop_getElem? i₂, drop_getElem? i₃] at hc
  have hnd : [s, a, c].Nodup := by
    have := hf.nodup hc
    simp [List.nodup_append] at this ⊢
    tauto
  refine Safe.guard (hf.hasUsers _ hnd (by simp) (fun u hu => ?_)) fun hv => ?_
  · simp only [List.mem_cons, List.not_mem_nil, or_false] at hu
    rcases hu with rfl | rfl | rfl
    · exact ⟨_, e₁, mem_operands_store⟩
    · exact ⟨_, e₂, mem_operands_load⟩
    · exact ⟨_, e₃, mem_operands_load⟩
  · rw [ht, ok_bind]
    exact hf.double_rewrites t.loc hc e₁ e₂ e₃ hv

lemma applyRule_proper (code : Array Id) (hf : Sound f) (hst : Storeless f) (hc : f.listing? b = some code.toList)
    (i : Nat) : Safe f b (f.applyRule code i rules) := by
  have hrules : ∀ r ∈ rules, Safe f b (r f code i) := by
    simp only [rules, List.forall_mem_cons, List.not_mem_nil, false_implies, implies_true, and_true]
    exact ⟨forward_proper hf hst hc i, reorder_proper hf hst hc i, storeLoadStore_proper hf hst hc i,
      roundTrip_proper hf hst hc i, loadPair_proper hf hst hc i, doubleReload_proper hf hc i⟩
  generalize rules = rs at hrules
  induction rs with
  | nil => exact Safe.none
  | cons r rs ih =>
    obtain ⟨o, ho, hr⟩ := hrules r (by simp)
    rw [applyRule, ho, ok_bind]
    cases o with
    | none => exact ih fun q hq => hrules q (by simp [hq])
    | some g => exact ⟨some g, rfl, hr⟩

end Accumulator.Flow.Func
