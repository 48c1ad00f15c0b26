import Mathlib
import Accumulator.Proofs.Redirect

/-!
# Functions made by edits

`Made` holds of the functions that come from an empty one by edits that succeed. All of them are
sound, and their lists of locals and parameters name variables.
-/

namespace Accumulator.Flow.Func

/-- A function that was made by edits. Every instruction that is allocated has a payload of its own,
so functions in which two instructions share one are not covered. -/
inductive Made : Func → Prop where
  | empty (name : Bytes) (isMain : Bool) (loc : Position) :
    Made { name := name, isMain := isMain, loc := loc }
  | entry {f : Func} (b : BlockId) : Made f → Made { f with entry := b }
  | callers {f : Func} (sites : List CallSite) : Made f → Made { f with callers := sites }
  | newBlock {f : Func} : Made f → Made f.newBlock.2
  | newVar {f : Func} (loc : Position) (v : Variable) : Made f → Made (f.newVar loc v).2
  | new {f f' : Func} {loc : Position} {x : Payload} {i : Id} :
    Made f → f.new loc x = .ok (i, f') → Made f'
  | append {f f' : Func} {b : BlockId} {i : Id} : Made f → f.append b i = .ok f' → Made f'
  | insertBefore {f f' : Func} {anchor i : Id} :
    Made f → f.insertBefore anchor i = .ok f' → Made f'
  | insertAfter {f f' : Func} {anchor i : Id} : Made f → f.insertAfter anchor i = .ok f' → Made f'
  | detach {f f' : Func} {i : Id} : Made f → f.detach i = .ok f' → Made f'
  | erase {f f' : Func} {i : Id} : Made f → f.erase i = .ok f' → Made f'
  | replaceUses {f f' : Func} {old new : Id} : Made f → f.replaceUses old new = .ok f' → Made f'
  | replaceUse {f f' : Func} {user old new : Id} :
    Made f → f.replaceUse user old new = .ok f' → Made f'

variable {f f' : Func} {s : Slot}

lemma becomes_of_ok {r : Except Fault Func} {live : Id → Option Payload}
    {code : BlockId → Option (List Id)}
    (h : ∃ g, r = .ok g ∧ g.slots.size = f.slots.size ∧ Becomes f g live code)
    (hr : r = .ok f') : Becomes f f' live code := by
  obtain ⟨g, hg, -, hb⟩ := h
  obtain rfl : g = f' := Except.ok.inj (hg.symm.trans hr)
  exact hb

lemma Sound.not_mem_of_noBlock (hf : Sound f) {i : Id} (hs : f.at? i = some s)
    (hb : s.block = noBlock) {c : BlockId} {l : List Id} (hl : f.listing? c = some l) : i ∉ l := by
  intro hi
  have := (hf.block_of_mem hl hi hs).1
  rw [hb] at this
  exact ne_noBlock_of_listing? hl this.symm

lemma Sound.of_place (hf : Sound f) {b : BlockId} {i : Id} {g : Array Id → Array Id}
    (h : (do (← f.place b i).updateCode b g) = .ok f') :
    ∃ x l, f.live? i = some x ∧ (∀ v, x ≠ .var v) ∧ (∀ c l, f.listing? c = some l → i ∉ l) ∧
      f.listing? b = some l := by
  rw [bind_eq_ok] at h
  obtain ⟨f₁, h₁, h₂⟩ := h
  obtain ⟨s, hs, hv, hb, hd, rfl⟩ := place_eq_ok.mp h₁
  obtain ⟨l, hl⟩ := Option.isSome_iff_exists.mp (updateCode_eq_ok.mp h₂).1
  exact ⟨s.payload, l, live?_eq_some.mpr ⟨s, hs, hd, rfl⟩, hv,
    fun c l hl => hf.not_mem_of_noBlock hs hb hl, hl⟩

lemma Sound.of_append (hf : Sound f) {b : BlockId} {i : Id} (h : f.append b i = .ok f') :
    ∃ code, Becomes f f' f.live? code := by
  obtain ⟨x, l, hx, hv, hfree, hl⟩ := hf.of_place h
  exact ⟨_, becomes_of_ok (hf.append_becomes hx hv hfree hl) h⟩

lemma Sound.of_insertBefore (hf : Sound f) {anchor i : Id} (h : f.insertBefore anchor i = .ok f') :
    ∃ code, Becomes f f' f.live? code := by
  have h' := h
  unfold insertBefore at h'
  rw [bind_eq_ok] at h'
  obtain ⟨⟨b, n⟩, hpos, hat⟩ := h'
  obtain ⟨x, l, hx, hv, hfree, -⟩ := hf.of_place hat
  obtain ⟨pre, post, hl, -⟩ := pos_split hpos
  exact ⟨_, becomes_of_ok (hf.insertBefore_becomes hx hv hfree hl) h⟩

lemma Sound.of_insertAfter (hf : Sound f) {anchor i : Id} (h : f.insertAfter anchor i = .ok f') :
    ∃ code, Becomes f f' f.live? code := by
  have h' := h
  unfold insertAfter at h'
  rw [bind_eq_ok] at h'
  obtain ⟨⟨b, n⟩, hpos, hat⟩ := h'
  obtain ⟨x, l, hx, hv, hfree, -⟩ := hf.of_place hat
  obtain ⟨pre, post, hl, -⟩ := pos_split hpos
  exact ⟨_, becomes_of_ok (hf.insertAfter_becomes hx hv hfree hl) h⟩

lemma Sound.of_detach (hf : Sound f) {i : Id} (h : f.detach i = .ok f') :
    ∃ code, Becomes f f' f.live? code := by
  have h' := h
  unfold detach at h'
  rw [bind_eq_ok] at h'
  obtain ⟨⟨b, n⟩, hpos, -⟩ := h'
  obtain ⟨pre, post, hl, -⟩ := pos_split hpos
  exact ⟨_, becomes_of_ok (hf.detach_becomes hl) h⟩

lemma Sound.operands_of_erase (hf : Sound f) {i : Id} (hs : f.at? i = some s) (hd : s.dead = true)
    (h : f.erase i = .ok f') : s.payload.operands = [] := by
  unfold erase at h
  rw [slot_eq_ok.mpr hs, ok_bind] at h
  by_cases hr : s.refs = []
  · simp only [hr, ne_eq, not_true_eq_false, if_false, bind_eq_ok] at h
    obtain ⟨f₁, h₁, -⟩ := h
    cases hops : s.payload.operands with
    | nil => rfl
    | cons op ops =>
      rw [hops, List.foldlM_cons, bind_eq_ok] at h₁
      obtain ⟨f₂, h₂, -⟩ := h₁
      obtain ⟨t, ht, hmem, -⟩ := removeRef_eq_ok.mp h₂
      obtain ⟨x, hx, -⟩ := (hf.mem_refs_iff ht).mp hmem
      simp [live?_of_at? hs, hd] at hx
  · simp [hr] at h

lemma Sound.of_erase (hf : Sound f) {i : Id} (h : f.erase i = .ok f') :
    ∃ code, Becomes f f' (Function.update f.live? i none) code := by
  have h' := h
  unfold erase at h'
  rw [bind_eq_ok] at h'
  obtain ⟨s, hs, h'⟩ := h'
  rw [slot_eq_ok] at hs
  have hr : s.refs = [] := by
    by_contra hr
    simp [hr] at h'
  by_cases hb : s.block = noBlock
  · refine ⟨_, becomes_of_ok (hf.erase_unplaced hs hb (fun d => ?_) hr) h⟩
    cases hd : s.dead with
    | true =>
      rw [hf.operands_of_erase hs hd h, uses_of_none (by simp [live?_of_at? hs, hd])]
      rfl
    | false => exact uses_of_live (live?_eq_some.mpr ⟨s, hs, hd, rfl⟩)
  · obtain ⟨l, hl, hi⟩ := hf.placed hs hb
    obtain ⟨pre, post, rfl⟩ := List.append_of_mem hi
    refine ⟨_, becomes_of_ok (hf.erase_becomes hl fun u y hu hiy => ?_) h⟩
    have := (hf.mem_refs_iff hs).mpr ⟨y, hu, hiy⟩
    simp [hr] at this

lemma Sound.of_replaceUses (hf : Sound f) {old new : Id} (h : f.replaceUses old new = .ok f') :
    Becomes f f' (fun j => (f.live? j).map (·.rename (instead old new))) f.listing? := by
  have h' := h
  unfold replaceUses at h'
  rw [bind_eq_ok] at h'
  obtain ⟨users, husers, h'⟩ := h'
  obtain ⟨s, hs, rfl⟩ := refs_eq_ok.mp husers
  refine becomes_of_ok (hf.replaceUses_becomes hs ?_) h
  cases hr : s.refs with
  | nil => exact Or.inr rfl
  | cons u us =>
    left
    rw [updateSlot_eq hs, ok_bind, hr, List.foldlM_cons, bind_eq_ok] at h'
    obtain ⟨f₁, h₁, -⟩ := h'
    obtain ⟨x, hx, hold⟩ := (hf.mem_refs_iff (u := u) hs).mp (by simp [hr])
    obtain ⟨t, ht, -, rfl⟩ := live?_eq_some.mp hx
    unfold redirect at h₁
    rw [bind_eq_ok] at h₁
    obtain ⟨y, hy, h₁⟩ := h₁
    obtain rfl : t.payload = y := by
      obtain ⟨t', ht', rfl⟩ := payload_eq_ok.mp hy
      rw [at?_amend (nonneg_of_at? hs), ht] at ht'
      split at ht' <;> simp at ht' <;> rw [← ht']
    simp only [hold, if_true, bind_eq_ok] at h₁
    obtain ⟨f₂, h₂, h₁⟩ := h₁
    have hnew := (addRef_eq_ok.mp h₁).1
    obtain ⟨hu, rfl⟩ := updateSlot_eq_ok.mp h₂
    rw [at?_amend (nonneg_of_at? ht), at?_amend (nonneg_of_at? hs)] at hnew
    split at hnew <;> split at hnew <;> simpa using hnew

lemma Sound.of_replaceUse (hf : Sound f) {user old new : Id}
    (h : f.replaceUse user old new = .ok f') :
    ∃ live, Becomes f f' live f.listing? := by
  have h' := h
  unfold replaceUse at h'
  rw [bind_eq_ok] at h'
  obtain ⟨x, hx, h'⟩ := h'
  obtain ⟨s, hs, rfl⟩ := payload_eq_ok.mp hx
  simp only [updateSlot_eq hs, ok_bind] at h'
  by_cases hold : old ∈ s.payload.operands
  · obtain ⟨n, hn⟩ : ∃ n, s.payload.operands.count old = n + 1 :=
      Nat.exists_eq_succ_of_ne_zero (List.count_pos_iff.mpr hold).ne'
    rw [hn, moveRefs, bind_eq_ok] at h'
    obtain ⟨f₁, h₁, h'⟩ := h'
    rw [bind_eq_ok] at h'
    obtain ⟨f₂, h₂, -⟩ := h'
    obtain ⟨t, ht, hmem, rfl⟩ := removeRef_eq_ok.mp h₁
    have hnew := (addRef_eq_ok.mp h₂).1
    rw [at?_amend (nonneg_of_at? ht), at?_amend (nonneg_of_at? hs)] at hnew
    rw [at?_amend (nonneg_of_at? hs)] at ht
    obtain ⟨r, hr, hmem⟩ : ∃ r, f.at? old = some r ∧ user ∈ r.refs := by
      split at ht
      · obtain ⟨r, hr, rfl⟩ := Option.map_eq_some_iff.mp ht
        exact ⟨r, hr, hmem⟩
      · exact ⟨t, ht, hmem⟩
    obtain ⟨y, hy, -⟩ := (hf.mem_refs_iff hr).mp hmem
    refine ⟨_, becomes_of_ok (hf.replaceUse_becomes hy (by rw [hr]; rfl) (Or.inl ?_)) h⟩
    split at hnew <;> split at hnew <;> simpa using hnew
  · rw [List.count_eq_zero.mpr hold, moveRefs] at h'
    have hmap : (s.payload.operands.map fun op => if op = old then new else op) =
        s.payload.operands := by
      conv_rhs => rw [← List.map_id s.payload.operands]
      refine List.map_congr_left fun op hop => if_neg ?_
      rintro rfl
      exact hold hop
    rw [hmap, Payload.withOperands_operands] at h'
    obtain rfl := Except.ok.inj h'
    have hat : ∀ j, (f.amend user fun t => { t with payload := s.payload }).at? j = f.at? j := by
      intro j
      rw [at?_amend (nonneg_of_at? hs)]
      split
      · rename_i hj
        rw [hj, hs]
        rfl
      · rfl
    refine ⟨f.live?, sameFrame_amend f user _, ?_, ?_, rfl, ?_, fun _ => rfl⟩
    · exact hf.congr hat fun _ => rfl
    · intro j
      rw [varOf?_eq, varOf?_eq, hat]
    · intro j
      simp only [live?, hat]

/-- The frame of a function names variables. -/
def Framed (f : Func) : Prop := ∀ v ∈ f.locals ++ f.params, (f.varOf? v).isSome

lemma Becomes.framed {live : Id → Option Payload} {code : BlockId → Option (List Id)}
    (h : Becomes f f' live code) (hf : Framed f) : Framed f' := by
  obtain ⟨slots, blocks, heq⟩ := h.frame
  intro v hv
  rw [h.vars]
  rw [heq] at hv
  exact hf v hv

lemma varOf?_newVar (f : Func) (loc : Position) (v : Variable) (j : Id) :
    (f.newVar loc v).2.varOf? j = if j = f.slots.size then some v else f.varOf? j := by
  rw [varOf?_eq, varOf?_eq, at?_newVar]
  split <;> rfl

lemma Framed.newVar (hf : Framed f) (loc : Position) (v : Variable) :
    Framed (f.newVar loc v).2 := by
  intro w hw
  rw [varOf?_newVar]
  split
  · rfl
  · rename_i hne
    refine hf w ?_
    unfold Func.newVar at hw
    cases hk : v.kind <;> simp [hk, hne] at hw ⊢ <;> exact hw

lemma varOf?_new {loc : Position} {x : Payload} {i : Id} (h : f.new loc x = .ok (i, f')) {j : Id}
    (hj : (f.varOf? j).isSome) : f'.varOf? j = f.varOf? j := by
  obtain ⟨-, -, -, -, hat⟩ := new_spec h
  have hne : j ≠ f.slots.size := by
    rintro rfl
    rw [varOf?_eq, at?_size_eq_none] at hj
    simp at hj
  have hat := hat j
  rw [if_neg hne] at hat
  exact varOf?_of_map hat fun _ => rfl

theorem Made.sound (h : Made f) : Sound f ∧ Framed f := by
  induction h with
  | empty name isMain loc => exact ⟨Sound.empty _ rfl rfl, fun v hv => by simp at hv⟩
  | entry b _ ih => exact ⟨ih.1.congr (fun _ => rfl) fun _ => rfl, ih.2⟩
  | callers sites _ ih => exact ⟨ih.1.congr (fun _ => rfl) fun _ => rfl, ih.2⟩
  | newBlock _ ih => exact ⟨ih.1.newBlock, ih.2⟩
  | newVar loc v _ ih => exact ⟨ih.1.newVar loc v, ih.2.newVar loc v⟩
  | new _ h ih =>
    refine ⟨(ih.1.new h).1, fun v hv => ?_⟩
    obtain ⟨-, ⟨slots, rfl⟩, -⟩ := new_spec h
    have := ih.2 v hv
    rw [varOf?_new h this]
    exact this
  | append _ h ih =>
    obtain ⟨code, hb⟩ := ih.1.of_append h
    exact ⟨hb.sound, hb.framed ih.2⟩
  | insertBefore _ h ih =>
    obtain ⟨code, hb⟩ := ih.1.of_insertBefore h
    exact ⟨hb.sound, hb.framed ih.2⟩
  | insertAfter _ h ih =>
    obtain ⟨code, hb⟩ := ih.1.of_insertAfter h
    exact ⟨hb.sound, hb.framed ih.2⟩
  | detach _ h ih =>
    obtain ⟨code, hb⟩ := ih.1.of_detach h
    exact ⟨hb.sound, hb.framed ih.2⟩
  | erase _ h ih =>
    obtain ⟨code, hb⟩ := ih.1.of_erase h
    exact ⟨hb.sound, hb.framed ih.2⟩
  | replaceUses _ h ih =>
    have hb := ih.1.of_replaceUses h
    exact ⟨hb.sound, hb.framed ih.2⟩
  | replaceUse _ h ih =>
    obtain ⟨live, hb⟩ := ih.1.of_replaceUse h
    exact ⟨hb.sound, hb.framed ih.2⟩

lemma Framed.not_mem_size (hf : Framed f) : (f.slots.size : Int) ∉ f.locals ++ f.params := by
  intro h
  have := hf _ h
  rw [varOf?_eq, at?_size_eq_none] at this
  cases this

lemma SameFrame.vars (h : SameFrame f f') : f'.locals ++ f'.params = f.locals ++ f.params := by
  obtain ⟨slots, blocks, rfl⟩ := h
  rfl

/-- No variable is listed twice. -/
theorem Made.nodup_vars (h : Made f) : (f.locals ++ f.params).Nodup := by
  induction h with
  | empty name isMain loc => exact List.nodup_nil
  | entry b _ ih => exact ih
  | callers sites _ ih => exact ih
  | newBlock _ ih => exact ih
  | @newVar f loc v hf ih =>
    have hfresh := hf.sound.2.not_mem_size
    unfold Func.newVar
    cases v.kind with
    | localVar =>
      have hperm : (f.locals ++ [(f.slots.size : Int)] ++ f.params).Perm
          ((f.slots.size : Int) :: (f.locals ++ f.params)) := by
        rw [List.append_assoc]
        exact List.perm_middle
      exact hperm.nodup_iff.mpr (List.nodup_cons.mpr ⟨hfresh, ih⟩)
    | param =>
      have hperm : (f.locals ++ (f.params ++ [(f.slots.size : Int)])).Perm
          ((f.slots.size : Int) :: (f.locals ++ f.params)) := by
        rw [← List.append_assoc]
        exact List.perm_append_comm
      exact hperm.nodup_iff.mpr (List.nodup_cons.mpr ⟨hfresh, ih⟩)
    | unknown n => exact ih
  | new _ h ih =>
    obtain ⟨-, ⟨slots, rfl⟩, -⟩ := new_spec h
    exact ih
  | append hf h ih =>
    obtain ⟨code, hb⟩ := hf.sound.1.of_append h
    rwa [hb.frame.vars]
  | insertBefore hf h ih =>
    obtain ⟨code, hb⟩ := hf.sound.1.of_insertBefore h
    rwa [hb.frame.vars]
  | insertAfter hf h ih =>
    obtain ⟨code, hb⟩ := hf.sound.1.of_insertAfter h
    rwa [hb.frame.vars]
  | detach hf h ih =>
    obtain ⟨code, hb⟩ := hf.sound.1.of_detach h
    rwa [hb.frame.vars]
  | erase hf h ih =>
    obtain ⟨code, hb⟩ := hf.sound.1.of_erase h
    rwa [hb.frame.vars]
  | replaceUses hf h ih => rwa [(hf.sound.1.of_replaceUses h).frame.vars]
  | replaceUse hf h ih =>
    obtain ⟨live, hb⟩ := hf.sound.1.of_replaceUse h
    rwa [hb.frame.vars]

end Accumulator.Flow.Func
