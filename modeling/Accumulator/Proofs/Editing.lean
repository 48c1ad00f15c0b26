import Mathlib
import Accumulator.Proofs.Sound

/-!
# What edits do

`Becomes f f' live code` says that a sound function `f'` came from `f` by edits: it has the given
payloads and code, and all else is as it was. There is one such statement for each edit, with the
condition under which the edit succeeds.
-/

namespace Accumulator.Flow

/-- The variable that a payload is. -/
def Payload.asVar : Payload → Option Variable
  | .var v => some v
  | _ => none

lemma Payload.asVar_eq_none {x : Payload} : x.asVar = none ↔ ∀ v, x ≠ .var v := by
  cases x <;> simp [asVar]

namespace Func

variable {f f' f'' : Func} {s : Slot}

lemma varOf?_eq (f : Func) (i : Id) : f.varOf? i = (f.at? i).bind fun s => s.payload.asVar := by
  unfold varOf? payload at?
  cases f.slot i with
  | error e => rfl
  | ok s => cases h : s.payload <;> simp [Except.toOption, Payload.asVar, h]

lemma var?_eq {d : Id} (h : (f.at? d).isSome) : f.var? d = .ok (f.varOf? d) := by
  obtain ⟨s, hs⟩ := Option.isSome_iff_exists.mp h
  have hp : f.payload d = .ok s.payload := payload_eq_ok.mpr ⟨s, hs, rfl⟩
  have hnonneg : ¬ d < 0 := not_lt.mpr (nonneg_of_at? hs)
  unfold var? varOf?
  simp only [hnonneg, if_false, hp, ok_bind]
  cases s.payload <;> rfl

lemma at?_of_varOf? {m : Id} (hm : (f.varOf? m).isSome) : (f.at? m).isSome := by
  rw [varOf?_eq] at hm
  cases h : f.at? m with
  | none => simp [h] at hm
  | some s => rfl

lemma varOf?_of_live {i : Id} {x : Payload} (h : f.live? i = some x) : f.varOf? i = x.asVar := by
  obtain ⟨s, hs, -, rfl⟩ := live?_eq_some.mp h
  rw [varOf?_eq, hs]
  rfl

lemma varOf?_of_map {g : Slot → Slot} {j : Id} (h : f'.at? j = (f.at? j).map g)
    (hp : ∀ s, (g s).payload = s.payload) : f'.varOf? j = f.varOf? j := by
  rw [varOf?_eq, varOf?_eq, h]
  cases f.at? j <;> simp [hp]

/-- A function after edits: sound, with the given payloads and the given code. -/
structure Becomes (f f' : Func) (live : Id → Option Payload) (code : BlockId → Option (List Id)) :
    Prop where
  frame : SameFrame f f'
  sound : Sound f'
  vars : ∀ j, f'.varOf? j = f.varOf? j
  blocks : f'.blocks.size = f.blocks.size
  live : ∀ j, f'.live? j = live j
  code : ∀ c, f'.listing? c = code c

lemma Becomes.trans {live live' : Id → Option Payload} {code code' : BlockId → Option (List Id)}
    (h : Becomes f f' live code) (h' : Becomes f' f'' live' code') : Becomes f f'' live' code' :=
  ⟨h.frame.trans h'.frame, h'.sound, fun j => (h'.vars j).trans (h.vars j),
    h'.blocks.trans h.blocks, h'.live, h'.code⟩

lemma Becomes.congr {live live' : Id → Option Payload} {code code' : BlockId → Option (List Id)}
    (h : Becomes f f' live code) (hlive : ∀ j, live j = live' j) (hcode : ∀ c, code c = code' c) :
    Becomes f f' live' code' :=
  ⟨h.frame, h.sound, h.vars, h.blocks, fun j => (h.live j).trans (hlive j),
    fun c => (h.code c).trans (hcode c)⟩

lemma Sound.new_becomes (hf : Sound f) (loc : Position) {x : Payload} (hx : ∀ v, x ≠ .var v)
    (h : ∀ op ∈ x.operands, (f.at? op).isSome) :
    ∃ f', f.new loc x = .ok ((f.slots.size : Int), f') ∧ f'.slots.size = f.slots.size + 1 ∧
      Becomes f f' (Function.update f.live? (f.slots.size : Int) (some x)) f.listing? := by
  obtain ⟨i, f', hnew⟩ := new_ok loc h
  obtain ⟨rfl, ⟨slots, rfl⟩, hsize, -, hat⟩ := new_spec hnew
  obtain ⟨hsound, hlive⟩ := hf.new hnew
  refine ⟨_, hnew, hsize, ⟨slots, f.blocks, rfl⟩, hsound, ?_, rfl, ?_, fun _ => rfl⟩
  · intro j
    have hj := hat j
    by_cases hji : j = f.slots.size
    · rw [varOf?_eq, varOf?_eq, hj, if_pos hji, hji, at?_size_eq_none]
      exact Payload.asVar_eq_none.mpr hx
    · rw [if_neg hji] at hj
      exact varOf?_of_map hj fun _ => rfl
  · intro j
    rw [hlive, Function.update_apply]

lemma insertIdx_length (pre post : List Id) (x : Id) :
    (pre ++ post).insertIdx pre.length x = pre ++ x :: post := by
  induction pre with
  | nil => rfl
  | cons a pre ih => simp [ih]

lemma eraseIdx_length (pre post : List Id) (x : Id) :
    (pre ++ x :: post).eraseIdx pre.length = pre ++ post := by
  induction pre with
  | nil => rfl
  | cons a pre ih => simp [ih]

lemma idxOf?_append {pre post : List Id} {x : Id} (h : x ∉ pre) :
    (pre ++ x :: post).idxOf? x = some pre.length := by
  rw [List.idxOf?_eq_some_iff]
  refine ⟨by simp, by simp, ?_⟩
  intro j hj
  rw [List.getElem_append_left hj]
  rintro rfl
  exact h (List.getElem_mem hj)

lemma pos_of_listing {b : BlockId} {i : Id} {pre post : List Id} (hs : f.at? i = some s)
    (hb : s.block = b) (hl : f.listing? b = some (pre ++ i :: post)) (hi : i ∉ pre) :
    f.pos i = .ok (b, pre.length) := by
  unfold pos
  rw [slot_eq_ok.mpr hs]
  have hcode : f.code b = .ok (pre ++ i :: post).toArray := code_eq_ok.mpr (by simpa using hl)
  simp only [ok_bind, hb, ne_noBlock_of_listing? hl, if_false, hcode, ← Array.idxOf?_toList,
    idxOf?_append hi]
  rfl

lemma pos_split {b : BlockId} {i : Id} {n : Nat} (h : f.pos i = .ok (b, n)) :
    ∃ pre post, f.listing? b = some (pre ++ i :: post) ∧ n = pre.length := by
  unfold pos at h
  simp only [bind_eq_ok, throw_eq_error] at h
  obtain ⟨s, hs, h⟩ := h
  split at h
  · simp at h
  · rw [bind_eq_ok] at h
    obtain ⟨c, hc, h⟩ := h
    split at h
    · rename_i m hm
      obtain ⟨rfl, rfl⟩ : s.block = b ∧ m = n := by simpa using h
      rw [← Array.idxOf?_toList, List.idxOf?_eq_some_iff] at hm
      obtain ⟨hlt, hget, -⟩ := hm
      refine ⟨c.toList.take m, c.toList.drop (m + 1), ?_, ?_⟩
      · rw [code_eq_ok.mp hc, Option.some.injEq, ← hget, ← List.drop_eq_getElem_cons,
          List.take_append_drop]
      · simp only [List.length_take]
        omega
    · simp at h

lemma Sound.not_mem_pre (hf : Sound f) {b : BlockId} {i : Id} {pre post : List Id}
    (hl : f.listing? b = some (pre ++ i :: post)) : i ∉ pre ∧ i ∉ post := by
  have hnd := hf.nodup hl
  rw [List.nodup_middle, List.nodup_cons, List.mem_append, not_or] at hnd
  exact hnd.1

lemma Sound.pos_eq (hf : Sound f) {b : BlockId} {i : Id} {pre post : List Id}
    (hl : f.listing? b = some (pre ++ i :: post)) : f.pos i = .ok (b, pre.length) := by
  obtain ⟨s, hs, hb, -⟩ := hf.code hl i (by simp)
  exact pos_of_listing hs hb hl (hf.not_mem_pre hl).1

lemma Sound.block_eq_noBlock (hf : Sound f) {i : Id} (hs : f.at? i = some s)
    (h : ∀ c l, f.listing? c = some l → i ∉ l) : s.block = noBlock := by
  by_contra hb
  obtain ⟨l, hl, hmem⟩ := hf.placed hs hb
  exact h _ l hl hmem

lemma sameFrame_amend (f : Func) (i : Id) (g : Slot → Slot) : SameFrame f (f.amend i g) :=
  ⟨_, f.blocks, rfl⟩

lemma sameFrame_recode (f : Func) (b : BlockId) (g : Array Id → Array Id) :
    SameFrame f (f.recode b g) :=
  ⟨f.slots, _, rfl⟩

lemma Sound.place_becomes (hf : Sound f) {b : BlockId} {i : Id} {x : Payload} {l : List Id}
    (hx : f.live? i = some x) (hv : ∀ v, x ≠ .var v)
    (hfree : ∀ c l, f.listing? c = some l → i ∉ l) (hl : f.listing? b = some l)
    {g : Array Id → Array Id} (hg : (g l.toArray).toList.Perm (i :: l)) :
    ∃ f', (do (← f.place b i).updateCode b g) = .ok f' ∧ f'.slots.size = f.slots.size ∧
      Becomes f f' f.live? (Function.update f.listing? b (some (g l.toArray).toList)) := by
  obtain ⟨s, hs, hd, rfl⟩ := live?_eq_some.mp hx
  have hblock := hf.block_eq_noBlock hs hfree
  have hat := at?_place (b := b) hs g
  have hlist := listing?_place (i := i) hl (fun s => { s with block := b }) g
  obtain ⟨hsound, hlive⟩ := hf.place hs hblock hd hv hl hg hat hlist
  refine ⟨(f.amend i fun s => { s with block := b }).recode b g, ?_, ?_,
    (sameFrame_amend f i _).trans (sameFrame_recode _ b g), hsound, ?_, ?_, hlive, ?_⟩
  · rw [place_eq_ok.mpr ⟨s, hs, hv, hblock, hd, rfl⟩, ok_bind, updateCode_eq_ok]
    exact ⟨by simp [hl], rfl⟩
  · simp [recode, amend]
  · intro j
    rw [varOf?_eq, varOf?_eq, hat j]
    by_cases hj : j = i
    · simp [hj, hs]
    · simp [hj]
  · simp [recode, amend]
  · intro c
    rw [hlist, Function.update_apply]

lemma Sound.append_becomes (hf : Sound f) {b : BlockId} {i : Id} {x : Payload} {l : List Id}
    (hx : f.live? i = some x) (hv : ∀ v, x ≠ .var v)
    (hfree : ∀ c l, f.listing? c = some l → i ∉ l) (hl : f.listing? b = some l) :
    ∃ f', f.append b i = .ok f' ∧ f'.slots.size = f.slots.size ∧
      Becomes f f' f.live? (Function.update f.listing? b (some (l ++ [i]))) := by
  have hg : (l.toArray.push i).toList = l ++ [i] := by simp
  rw [← hg]
  refine hf.place_becomes (g := fun c => c.push i) hx hv hfree hl ?_
  rw [hg]
  exact List.perm_append_singleton i l

lemma Sound.insertAt_becomes (hf : Sound f) {b : BlockId} {i : Id} {x : Payload}
    {pre post : List Id} (hx : f.live? i = some x) (hv : ∀ v, x ≠ .var v)
    (hfree : ∀ c l, f.listing? c = some l → i ∉ l) (hl : f.listing? b = some (pre ++ post)) :
    ∃ f', f.insertAt b pre.length i = .ok f' ∧ f'.slots.size = f.slots.size ∧
      Becomes f f' f.live? (Function.update f.listing? b (some (pre ++ i :: post))) := by
  have hg : ((pre ++ post).toArray.insertIdxIfInBounds pre.length i).toList = pre ++ i :: post := by
    rw [Array.insertIdxIfInBounds, dif_pos (by simp), Array.toList_insertIdx]
    exact insertIdx_length pre post i
  rw [← hg]
  refine hf.place_becomes (g := fun c => c.insertIdxIfInBounds pre.length i) hx hv hfree hl ?_
  rw [hg]
  exact List.perm_middle

lemma Sound.insertBefore_becomes (hf : Sound f) {b : BlockId} {i anchor : Id} {x : Payload}
    {pre post : List Id} (hx : f.live? i = some x) (hv : ∀ v, x ≠ .var v)
    (hfree : ∀ c l, f.listing? c = some l → i ∉ l)
    (hl : f.listing? b = some (pre ++ anchor :: post)) :
    ∃ f', f.insertBefore anchor i = .ok f' ∧ f'.slots.size = f.slots.size ∧
      Becomes f f' f.live? (Function.update f.listing? b (some (pre ++ i :: anchor :: post))) := by
  unfold insertBefore
  rw [hf.pos_eq hl]
  exact hf.insertAt_becomes hx hv hfree hl

lemma Sound.insertAfter_becomes (hf : Sound f) {b : BlockId} {i anchor : Id} {x : Payload}
    {pre post : List Id} (hx : f.live? i = some x) (hv : ∀ v, x ≠ .var v)
    (hfree : ∀ c l, f.listing? c = some l → i ∉ l)
    (hl : f.listing? b = some (pre ++ anchor :: post)) :
    ∃ f', f.insertAfter anchor i = .ok f' ∧ f'.slots.size = f.slots.size ∧
      Becomes f f' f.live? (Function.update f.listing? b (some (pre ++ anchor :: i :: post))) := by
  unfold insertAfter
  rw [hf.pos_eq hl]
  have hl' : f.listing? b = some ((pre ++ [anchor]) ++ post) := by simpa using hl
  obtain ⟨f', h, hsize, hbecomes⟩ := hf.insertAt_becomes hx hv hfree hl'
  refine ⟨f', by simpa using h, hsize, ?_⟩
  simpa using hbecomes

/-- The function without instruction `i` at a place of a block. -/
def unplaced (f : Func) (b : BlockId) (n : Nat) (i : Id) : Func :=
  (f.recode b fun c => c.eraseIdxIfInBounds n).amend i fun s => { s with block := noBlock }

lemma detach_eq {b : BlockId} {i : Id} {n : Nat} (hs : f.at? i = some s)
    (hp : f.pos i = .ok (b, n)) : f.detach i = .ok (f.unplaced b n i) := by
  obtain ⟨pre, post, hl, -⟩ := pos_split hp
  unfold detach
  simp only [hp, ok_bind]
  rw [updateCode_eq_ok.mpr ⟨by simp [hl], rfl⟩, ok_bind, updateSlot_eq_ok]
  exact ⟨by simp [hs], rfl⟩

lemma at?_unplaced {b : BlockId} {i : Id} {n : Nat} (hs : f.at? i = some s) (j : Id) :
    (f.unplaced b n i).at? j = if j = i then some { s with block := noBlock } else f.at? j := by
  rw [unplaced, at?_amend (nonneg_of_at? hs), at?_recode]
  by_cases hj : j = i
  · simp [hj, hs]
  · simp [hj]

lemma listing?_unplaced {b : BlockId} {i : Id} {pre post : List Id}
    (hl : f.listing? b = some (pre ++ i :: post)) (c : BlockId) :
    (f.unplaced b pre.length i).listing? c =
      if c = b then some (pre ++ post) else f.listing? c := by
  rw [unplaced, listing?_amend, listing?_recode (nonneg_of_listing? hl)]
  by_cases hc : c = b
  · subst hc
    simp only [if_true, hl, Option.map_some, Array.toList_eraseIdxIfInBounds]
    rw [eraseIdx_length]
  · simp [hc]

lemma sameFrame_unplaced (f : Func) (b : BlockId) (n : Nat) (i : Id) :
    SameFrame f (f.unplaced b n i) :=
  (sameFrame_recode f b _).trans (sameFrame_amend _ i _)

lemma Sound.detach_becomes (hf : Sound f) {b : BlockId} {i : Id} {pre post : List Id}
    (hl : f.listing? b = some (pre ++ i :: post)) :
    ∃ f', f.detach i = .ok f' ∧ f'.slots.size = f.slots.size ∧
      Becomes f f' f.live? (Function.update f.listing? b (some (pre ++ post))) := by
  obtain ⟨s, hs, -⟩ := hf.code hl i (by simp)
  have hat := at?_unplaced (b := b) (n := pre.length) hs
  have hlist := listing?_unplaced hl
  obtain ⟨hsound, hlive⟩ := hf.unplace hs hl List.perm_middle hat hlist
  refine ⟨f.unplaced b pre.length i, detach_eq hs (hf.pos_eq hl), ?_, sameFrame_unplaced f b _ i,
    hsound, ?_, ?_, hlive, ?_⟩
  · simp [unplaced, recode, amend]
  · intro j
    rw [varOf?_eq, varOf?_eq, hat j]
    by_cases hj : j = i
    · simp [hj, hs]
    · simp [hj]
  · simp [unplaced, recode, amend]
  · intro c
    rw [hlist, Function.update_apply]

lemma removeRef_eq_ok {item user : Id} :
    f.removeRef item user = .ok f' ↔ ∃ s, f.at? item = some s ∧ user ∈ s.refs ∧
      f' = f.amend item fun s => { s with refs := s.refs.erase user } := by
  unfold removeRef
  cases hs : f.at? item with
  | none =>
    cases h : f.slot item with
    | ok s => rw [slot_eq_ok.mp h] at hs; simp at hs
    | error e => simp [refs, h]
  | some s =>
    rw [refs_of_at? hs]
    simp only [ok_bind, updateSlot_eq hs, throw_eq_error, Option.some.injEq, exists_eq_left']
    by_cases hu : user ∈ s.refs <;> simp [hu, eq_comm]

lemma count_erase_iterate (user u : Id) (n : Nat) (l : List Id) :
    ((fun r => r.erase user)^[n] l).count u = if u = user then l.count u - n else l.count u := by
  induction n generalizing l with
  | zero => simp
  | succ n ih =>
    rw [Function.iterate_succ_apply, ih]
    by_cases h : u = user
    · subst h
      simp only [if_true, List.count_erase_self]
      omega
    · simp [h]

/-- Removing a user once for each of several operands only changes the lists of users. -/
lemma removeRefs_spec {ops : List Id} {user : Id}
    (h : ops.foldlM (fun f op => f.removeRef op user) f = .ok f') :
    (∃ slots, f' = { f with slots := slots }) ∧ f'.slots.size = f.slots.size ∧
      ∀ j, f'.at? j = (f.at? j).map fun s =>
        { s with refs := (fun r => r.erase user)^[ops.count j] s.refs } := by
  induction ops generalizing f with
  | nil =>
    obtain rfl : f = f' := by simpa using h
    exact ⟨⟨f.slots, rfl⟩, rfl, fun j => by simp⟩
  | cons op ops ih =>
    rw [List.foldlM_cons, bind_eq_ok] at h
    obtain ⟨f₁, h₁, h⟩ := h
    obtain ⟨s, hs, -, rfl⟩ := removeRef_eq_ok.mp h₁
    obtain ⟨⟨slots, rfl⟩, hsize, hat⟩ := ih h
    refine ⟨⟨slots, rfl⟩, by simpa [amend] using hsize, ?_⟩
    intro j
    rw [hat j, at?_amend (nonneg_of_at? hs)]
    by_cases hj : j = op
    · subst hj
      cases f.at? j <;> simp
    · have : (op == j) = false := by simpa using fun h => hj h.symm
      simp [hj, List.count_cons, this]

lemma removeRefs_ok (ops : List Id) (user : Id)
    (h : ∀ op ∈ ops, ∃ s, f.at? op = some s ∧ ops.count op ≤ s.refs.count user) :
    ∃ f', ops.foldlM (fun f op => f.removeRef op user) f = .ok f' := by
  induction ops generalizing f with
  | nil => exact ⟨f, rfl⟩
  | cons op ops ih =>
    obtain ⟨s, hs, hle⟩ := h op (by simp)
    have hmem : user ∈ s.refs := by
      rw [← List.count_pos_iff]
      simp only [List.count_cons_self] at hle
      omega
    rw [List.foldlM_cons, removeRef_eq_ok.mpr ⟨s, hs, hmem, rfl⟩, ok_bind]
    refine ih fun o ho => ?_
    obtain ⟨t, ht, hle'⟩ := h o (by simp [ho])
    rw [at?_amend (nonneg_of_at? hs)]
    by_cases hoo : o = op
    · subst hoo
      obtain rfl : s = t := Option.some.inj (hs.symm.trans ht)
      refine ⟨{ s with refs := s.refs.erase user }, by simp [hs], ?_⟩
      simp only [List.count_erase_self, List.count_cons_self] at hle' ⊢
      omega
    · refine ⟨t, by simp [hoo, ht], ?_⟩
      have : (op == o) = false := by simpa using fun h => hoo h.symm
      simpa [List.count_cons, this] using hle'

lemma Sound.dispose (hf : Sound f) {i : Id} {x : Payload} (hs : f.at? i = some s)
    (hr : s.refs = []) (hx : ∀ d, f.uses i d = x.operands.count d)
    {t : Slot} (ht : t.dead = true) (htr : t.refs = []) (htb : t.block = noBlock)
    (hat : ∀ j, f'.at? j = if j = i then some t else (f.at? j).map fun s =>
      { s with refs := (fun r => r.erase i)^[x.operands.count j] s.refs })
    (hlist : ∀ c, f'.listing? c = (f.listing? c).map (·.erase i)) :
    Sound f' ∧ ∀ j, f'.live? j = Function.update f.live? i none j := by
  have hlive : ∀ j, f'.live? j = Function.update f.live? i none j := by
    intro j
    rw [Function.update_apply]
    have hj := hat j
    by_cases hji : j = i
    · rw [if_pos hji] at hj ⊢
      simp [live?, hj, ht]
    · rw [if_neg hji] at hj ⊢
      exact live?_of_map hj (fun _ => rfl) (fun _ => rfl)
  have huses : ∀ u d, f'.uses u d = if u = i then 0 else f.uses u d := by
    intro u d
    have hu := hlive u
    rw [Function.update_apply] at hu
    by_cases hui : u = i
    · rw [if_pos hui] at hu ⊢
      exact uses_of_none hu
    · rw [if_neg hui] at hu ⊢
      exact uses_congr hu d
  have hzero : ∀ u, f.uses u i = 0 := by
    intro u
    rw [← hf.refs hs u, hr]
    rfl
  refine ⟨⟨?_, ?_, ?_, ?_, ?_⟩, hlive⟩
  · intro d r hd u
    rw [hat d] at hd
    rw [huses]
    by_cases hdi : d = i
    · rw [if_pos hdi, Option.some.injEq] at hd
      subst hd hdi
      rw [htr, hzero]
      simp
    · rw [if_neg hdi] at hd
      obtain ⟨r, hr, rfl⟩ := Option.map_eq_some_iff.mp hd
      simp only [count_erase_iterate, hf.refs hr]
      by_cases hui : u = i
      · subst hui
        simp [hx]
      · simp [hui]
  · intro u y hy d hd
    have hu := hlive u
    rw [Function.update_apply] at hu
    by_cases hui : u = i
    · rw [if_pos hui, hy] at hu
      simp at hu
    · rw [if_neg hui] at hu
      have := hf.operands (hu.symm.trans hy) d hd
      rw [hat d]
      split
      · rfl
      · simpa using this
  · intro j r hj hb
    rw [hat j] at hj
    by_cases hji : j = i
    · rw [if_pos hji, Option.some.injEq] at hj
      subst hj
      exact absurd htb hb
    · rw [if_neg hji] at hj
      obtain ⟨r, hr, rfl⟩ := Option.map_eq_some_iff.mp hj
      obtain ⟨l, hl, hmem⟩ := hf.placed hr hb
      refine ⟨l.erase i, by simp [hlist, hl], ?_⟩
      exact (List.mem_erase_of_ne hji).mpr hmem
  · intro c l hl
    rw [hlist] at hl
    obtain ⟨m, hm, rfl⟩ := Option.map_eq_some_iff.mp hl
    exact (hf.nodup hm).erase i
  · intro c l hl j hj
    rw [hlist] at hl
    obtain ⟨m, hm, rfl⟩ := Option.map_eq_some_iff.mp hl
    rw [(hf.nodup hm).mem_erase_iff] at hj
    obtain ⟨r, hr, hb, hd, hv⟩ := hf.code hm j hj.2
    have hj' := hat j
    rw [if_neg hj.1, hr, Option.map_some] at hj'
    exact ⟨_, hj', hb, hd, hv⟩

lemma Sound.erase_becomes (hf : Sound f) {b : BlockId} {i : Id} {pre post : List Id}
    (hl : f.listing? b = some (pre ++ i :: post))
    (hno : ∀ u y, f.live? u = some y → i ∉ y.operands) :
    ∃ f', f.erase i = .ok f' ∧ f'.slots.size = f.slots.size ∧
      Becomes f f' (Function.update f.live? i none)
        (Function.update f.listing? b (some (pre ++ post))) := by
  obtain ⟨s, hs, hb, hd, -⟩ := hf.code hl i (by simp)
  have hx : f.live? i = some s.payload := live?_eq_some.mpr ⟨s, hs, hd, rfl⟩
  have hr := hf.refs_eq_nil hs hno
  obtain ⟨f₁, h₁⟩ := removeRefs_ok s.payload.operands i (f := f) fun op hop => by
    obtain ⟨t, ht⟩ := Option.isSome_iff_exists.mp (hf.operands hx op hop)
    exact ⟨t, ht, by rw [hf.refs ht, uses_of_live hx]⟩
  obtain ⟨⟨slots, rfl⟩, hsize, hat₁⟩ := removeRefs_spec h₁
  generalize hg : ({ f with slots := slots } : Func) = g at h₁ hsize hat₁
  have hself : List.count i s.payload.operands = 0 := List.count_eq_zero.mpr (hno i _ hx)
  have hs₁ : g.at? i = some s := by rw [hat₁, hs, hself]; rfl
  have hl₁ : ∀ c, g.listing? c = f.listing? c := fun c => by rw [← hg]; rfl
  have hp₁ := pos_of_listing hs₁ hb ((hl₁ b).trans hl) (hf.not_mem_pre hl).1
  have hat₂ := at?_unplaced (b := b) (n := pre.length) hs₁
  have hlist₂ := listing?_unplaced ((hl₁ b).trans hl)
  have hs₂ := (hat₂ i).trans (if_pos rfl)
  have hat : ∀ j, ((g.unplaced b pre.length i).amend i fun s => { s with dead := true }).at? j =
      if j = i then some { s with block := noBlock, dead := true }
      else (f.at? j).map fun s' =>
        { s' with refs := (fun r => r.erase i)^[s.payload.operands.count j] s'.refs } := by
    intro j
    rw [at?_amend (nonneg_of_at? hs), hat₂]
    by_cases hj : j = i
    · simp [hj]
    · simp [hj, hat₁]
  have hlist : ∀ c, ((g.unplaced b pre.length i).amend i fun s => { s with dead := true }).listing? c =
      (f.listing? c).map (·.erase i) := by
    intro c
    rw [listing?_amend, hlist₂]
    by_cases hc : c = b
    · subst hc
      simp [hl, List.erase_append_right _ (hf.not_mem_pre hl).1]
    · rw [if_neg hc, hl₁]
      cases hm : f.listing? c with
      | none => rfl
      | some m =>
        have : i ∉ m := fun hi => hc (hf.block_unique hm hi hl (by simp))
        simp [List.erase_of_not_mem this]
  obtain ⟨hsound, hlive⟩ := hf.dispose (x := s.payload) hs hr (fun d => uses_of_live hx)
    (t := { s with block := noBlock, dead := true }) rfl hr rfl hat hlist
  refine ⟨(g.unplaced b pre.length i).amend i fun s => { s with dead := true }, ?_, ?_, ?_, hsound,
    ?_, ?_, hlive, ?_⟩
  · unfold erase
    rw [slot_eq_ok.mpr hs]
    simp only [ok_bind, hr, ne_eq, not_true_eq_false, if_false]
    rw [h₁, ok_bind, if_pos (by rw [hb]; exact ne_noBlock_of_listing? hl), detach_eq hs₁ hp₁, ok_bind,
      updateSlot_eq hs₂]
  · rw [← hsize]
    simp [unplaced, recode, amend]
  · have : SameFrame f g := ⟨slots, f.blocks, hg.symm⟩
    exact (this.trans (sameFrame_unplaced g b _ i)).trans (sameFrame_amend _ i _)
  · intro j
    rw [varOf?_eq, varOf?_eq, hat j]
    by_cases hj : j = i
    · simp [hj, hs]
    · rw [if_neg hj]
      cases f.at? j <;> rfl
  · rw [← hg]
    simp [unplaced, recode, amend]
  · intro c
    rw [listing?_amend, hlist₂, Function.update_apply, hl₁]

lemma Sound.erase_unplaced (hf : Sound f) {i : Id} (hs : f.at? i = some s)
    (hb : s.block = noBlock) (huses : ∀ d, f.uses i d = s.payload.operands.count d)
    (hr : s.refs = []) :
    ∃ f', f.erase i = .ok f' ∧ f'.slots.size = f.slots.size ∧
      Becomes f f' (Function.update f.live? i none) f.listing? := by
  have hself : s.payload.operands.count i = 0 := by
    rw [← huses, ← hf.refs hs, hr]
    rfl
  obtain ⟨f₁, h₁⟩ := removeRefs_ok s.payload.operands i (f := f) fun op hop => by
    have hpos : f.uses i op ≠ 0 := by
      rw [huses]
      exact (List.count_pos_iff.mpr hop).ne'
    cases ht : f.at? op with
    | none => exact absurd (hf.uses_eq_zero ht) hpos
    | some t => exact ⟨t, rfl, by rw [hf.refs ht, huses]⟩
  obtain ⟨⟨slots, rfl⟩, hsize, hat₁⟩ := removeRefs_spec h₁
  generalize hg : ({ f with slots := slots } : Func) = g at h₁ hsize hat₁
  have hs₁ : g.at? i = some s := by rw [hat₁, hs, hself]; rfl
  have hl₁ : ∀ c, g.listing? c = f.listing? c := fun c => by rw [← hg]; rfl
  have hat : ∀ j, (g.amend i fun s => { s with dead := true }).at? j =
      if j = i then some { s with dead := true }
      else (f.at? j).map fun s' =>
        { s' with refs := (fun r => r.erase i)^[s.payload.operands.count j] s'.refs } := by
    intro j
    rw [at?_amend (nonneg_of_at? hs)]
    by_cases hj : j = i
    · simp [hj, hs₁]
    · simp [hj, hat₁]
  have hlist : ∀ c, (g.amend i fun s => { s with dead := true }).listing? c =
      (f.listing? c).map (·.erase i) := by
    intro c
    rw [listing?_amend, hl₁]
    cases hc : f.listing? c with
    | none => rfl
    | some l =>
      have hfree : i ∉ l := by
        intro hi
        have := (hf.block_of_mem hc hi hs).1
        rw [hb] at this
        exact ne_noBlock_of_listing? hc this.symm
      simp [List.erase_of_not_mem hfree]
  obtain ⟨hsound, hlive⟩ := hf.dispose (x := s.payload) hs hr huses
    (t := { s with dead := true }) rfl hr hb hat hlist
  refine ⟨g.amend i fun s => { s with dead := true }, ?_, ?_, ?_, hsound, ?_, ?_, hlive, ?_⟩
  · unfold erase
    rw [slot_eq_ok.mpr hs]
    simp only [ok_bind, hr, hb, ne_eq, not_true_eq_false, if_false, h₁, pure_eq_ok]
    exact updateSlot_eq hs₁ _
  · rw [← hsize]
    simp [amend]
  · have : SameFrame f g := ⟨slots, f.blocks, hg.symm⟩
    exact this.trans (sameFrame_amend g i _)
  · intro j
    rw [varOf?_eq, varOf?_eq, hat j]
    by_cases hj : j = i
    · simp [hj, hs]
    · rw [if_neg hj]
      cases f.at? j <;> rfl
  · rw [← hg]
    rfl
  · intro c
    rw [listing?_amend, hl₁]

end Func

end Accumulator.Flow
