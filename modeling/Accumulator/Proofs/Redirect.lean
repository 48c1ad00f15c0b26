import Mathlib
import Accumulator.Proofs.Editing

/-!
# Redirecting uses

All uses of a slot, or those by one user, are turned into uses of another slot. The operands are
renamed by `instead old new`, and the lists of users follow.
-/

namespace Accumulator.Flow.Func

variable {f f' : Func} {s : Slot}

/-- The name `new` for `old`. -/
def instead (old new : Id) (op : Id) : Id := if op = old then new else op

@[simp] lemma instead_self (old new : Id) : instead old new old = new := if_pos rfl

lemma instead_of_ne {old new op : Id} (h : op ≠ old) : instead old new op = op := if_neg h

lemma length_replaceFirst (old new : Id) (l : List Id) :
    (replaceFirst old new l).length = l.length := by
  induction l with
  | nil => rfl
  | cons x l ih =>
    unfold replaceFirst
    split <;> simp [ih]

lemma replaceFirst_self (old : Id) (l : List Id) : replaceFirst old old l = l := by
  induction l with
  | nil => rfl
  | cons x l ih =>
    unfold replaceFirst
    split
    · rename_i h
      rw [h]
    · rw [ih]

lemma le_count_replaceFirst (old new : Id) (l : List Id) :
    l.count old - 1 ≤ (replaceFirst old new l).count old := by
  induction l with
  | nil => simp
  | cons x l ih =>
    unfold replaceFirst
    by_cases h : x = old
    · subst h
      simp only [if_true, List.count_cons_self, List.count_cons]
      omega
    · have hx : (x == old) = false := by simpa using h
      simpa [h, List.count_cons, hx] using ih

lemma iterate_replaceFirst_cons {old new x : Id} (h : x ≠ old) (n : Nat) (l : List Id) :
    (replaceFirst old new)^[n] (x :: l) = x :: (replaceFirst old new)^[n] l := by
  induction n generalizing l with
  | zero => rfl
  | succ n ih =>
    have hstep : replaceFirst old new (x :: l) = x :: replaceFirst old new l := by
      simp [replaceFirst, h]
    rw [Function.iterate_succ_apply, hstep, ih, Function.iterate_succ_apply]

/-- Replacing the first occurrence as often as there are occurrences replaces them all. -/
lemma iterate_replaceFirst (old new : Id) (l : List Id) :
    (replaceFirst old new)^[l.count old] l = l.map (instead old new) := by
  by_cases hne : new = old
  · subst hne
    have hid : replaceFirst new new = id := funext (replaceFirst_self new)
    have hmap : instead new new = id := by
      funext op
      by_cases h : op = new <;> simp [instead, h]
    rw [hid, Function.iterate_id, hmap, List.map_id]
    rfl
  · induction l with
    | nil => rfl
    | cons x l ih =>
      by_cases h : x = old
      · subst h
        have hstep : replaceFirst x new (x :: l) = new :: l := by simp [replaceFirst]
        rw [List.count_cons_self, Function.iterate_succ_apply, hstep,
          iterate_replaceFirst_cons hne, ih]
        simp
      · have hx : (x == old) = false := by simpa using h
        rw [List.count_cons, hx, iterate_replaceFirst_cons h]
        simp [ih, instead_of_ne h]

lemma count_map_instead (old new d : Id) (l : List Id) :
    (l.map (instead old new)).count d =
      (if d = old then 0 else l.count d) + (if d = new then l.count old else 0) := by
  induction l with
  | nil => simp
  | cons x l ih =>
    rw [List.map_cons, List.count_cons, ih, List.count_cons, List.count_cons]
    by_cases h : x = old
    · subst h
      by_cases hd : d = x <;> by_cases hn : d = new <;> grind [instead]
    · by_cases hd : d = old <;> by_cases hn : d = new <;> grind [instead]

lemma redirects_spec (old new : Id) (us : List Id) (hnew : (f.at? new).isSome ∨ us = [])
    (hus : ∀ u ∈ us, ∃ s, f.at? u = some s ∧ us.count u ≤ s.payload.operands.count old) :
    ∃ f', us.foldlM (fun f u => f.redirect old new u) f = .ok f' ∧
      (∃ slots, f' = { f with slots := slots }) ∧ f'.slots.size = f.slots.size ∧
      ∀ j, f'.at? j = (f.at? j).map fun s =>
        { s with
          payload := s.payload.withOperands ((replaceFirst old new)^[us.count j] s.payload.operands)
          refs := s.refs ++ if j = new then us else [] } := by
  induction us generalizing f with
  | nil => exact ⟨f, rfl, ⟨f.slots, rfl⟩, rfl, fun j => by simp⟩
  | cons u us ih =>
    have hnew : (f.at? new).isSome := hnew.resolve_right (by simp)
    obtain ⟨s, hs, hle⟩ := hus u (by simp)
    rw [List.count_cons_self] at hle
    have hmem : old ∈ s.payload.operands := by
      rw [← List.count_pos_iff]
      omega
    let first : Slot → Slot := fun t =>
      { t with payload := s.payload.withOperands (replaceFirst old new s.payload.operands) }
    let user : Slot → Slot := fun t => { t with refs := t.refs ++ [u] }
    have hstep : f.redirect old new u = .ok ((f.amend u first).amend new user) := by
      unfold redirect
      rw [payload_eq_ok.mpr ⟨s, hs, rfl⟩]
      simp only [ok_bind, hmem, if_true]
      rw [updateSlot_eq hs, ok_bind, addRef_eq_ok]
      refine ⟨?_, rfl⟩
      rw [at?_amend (nonneg_of_at? hs)]
      split <;> simpa using hnew
    have hat : ∀ j, ((f.amend u first).amend new user).at? j = (f.at? j).map fun t =>
        { t with
          payload := if j = u then (first t).payload else t.payload
          refs := t.refs ++ if j = new then [u] else [] } := by
      intro j
      rw [at?_amend (at?_isSome.mp hnew).1, at?_amend (nonneg_of_at? hs)]
      cases f.at? j with
      | none => simp
      | some t =>
        by_cases hju : j = u
        · subst hju
          by_cases hj : j = new <;> simp [hj, first, user]
        · by_cases hj : j = new
          · subst hj
            simp [hju, user]
          · simp [hj, hju]
    obtain ⟨f', hfold, ⟨slots, hslots⟩, hsize, hat'⟩ :=
      ih (f := (f.amend u first).amend new user) (by
        left
        rw [hat, Option.isSome_map]
        exact hnew) (by
        intro v hv
        obtain ⟨t, ht, hle'⟩ := hus v (by simp [hv])
        rw [hat, ht]
        refine ⟨_, rfl, ?_⟩
        by_cases hvu : v = u
        · subst hvu
          obtain rfl : s = t := Option.some.inj (hs.symm.trans ht)
          simp only [if_true, first]
          rw [Payload.operands_withOperands (length_replaceFirst _ _ _)]
          have := le_count_replaceFirst old new s.payload.operands
          omega
        · have : (u == v) = false := by simpa using fun h => hvu h.symm
          simpa [hvu, List.count_cons, this] using hle')
    refine ⟨f', ?_, ⟨slots, hslots⟩, ?_, ?_⟩
    · rw [List.foldlM_cons, hstep, ok_bind, hfold]
    · rw [hsize]
      simp [amend]
    · intro j
      rw [hat' j, hat j]
      cases ht : f.at? j with
      | none => rfl
      | some t =>
        simp only [Option.map_some, Option.some.injEq]
        by_cases hju : j = u
        · subst hju
          obtain rfl : s = t := Option.some.inj (hs.symm.trans ht)
          have hlen := length_replaceFirst old new s.payload.operands
          have hit : ∀ n (l : List Id), ((replaceFirst old new)^[n] l).length = l.length := by
            intro n
            induction n with
            | zero => simp
            | succ n ih => intro l; rw [Function.iterate_succ_apply, ih, length_replaceFirst]
          simp only [if_true, first, List.count_cons_self, Function.iterate_succ_apply]
          rw [Payload.operands_withOperands hlen,
            Payload.withOperands_withOperands hlen ((hit _ _).trans hlen)]
          by_cases hjn : j = new <;> simp [hjn]
        · have : (u == j) = false := by simpa using fun h => hju h.symm
          by_cases hjn : j = new
          · subst hjn
            simp [hju, List.count_cons, this]
          · simp [hju, hjn, List.count_cons, this]

lemma asVar_withOperands (x : Payload) (l : List Id) : (x.withOperands l).asVar = x.asVar := by
  cases x <;>
    first
    | rfl
    | (rcases l with _ | ⟨a, _ | ⟨b, _ | ⟨c, l⟩⟩⟩ <;> rfl)

/-- What is common to the edits that change operands: a function whose payloads were renamed, user
by user, with the lists of users changed to match. -/
lemma Sound.renamed (hf : Sound f) (f' : Func) (σ : Id → Id → Id)
    (hb : f'.blocks = f.blocks)
    (hat : ∀ j, (f'.at? j).isSome = (f.at? j).isSome)
    (hslot : ∀ {j s s'}, f.at? j = some s → f'.at? j = some s' →
      s'.block = s.block ∧ s'.dead = s.dead ∧
        s'.payload = if s.dead then s.payload else s.payload.rename (σ j))
    (hrefs : ∀ {d s'}, f'.at? d = some s' → ∀ u, s'.refs.count u =
      ((f.live? u).map fun x => (x.operands.map (σ u)).count d).getD 0)
    (hops : ∀ {u x}, f.live? u = some x → ∀ d ∈ x.operands, (f.at? (σ u d)).isSome) :
    Sound f' ∧ (∀ j, f'.varOf? j = f.varOf? j) ∧
      (∀ j, f'.live? j = (f.live? j).map (·.rename (σ j))) ∧ ∀ c, f'.listing? c = f.listing? c := by
  have hcode : ∀ c, f'.listing? c = f.listing? c := by
    intro c
    rw [listing?_eq, listing?_eq, hb]
  have hpair : ∀ j, (f.at? j = none ∧ f'.at? j = none) ∨
      ∃ s s', f.at? j = some s ∧ f'.at? j = some s' := by
    intro j
    have hj := hat j
    cases h : f.at? j <;> cases h' : f'.at? j <;> simp_all
  have hlive : ∀ j, f'.live? j = (f.live? j).map (·.rename (σ j)) := by
    intro j
    rcases hpair j with ⟨h, h'⟩ | ⟨s, s', h, h'⟩
    · simp [live?, h, h']
    · obtain ⟨-, hdead, hp⟩ := hslot h h'
      rw [live?_of_at? h, live?_of_at? h', hdead, hp]
      cases s.dead <;> simp
  refine ⟨⟨?_, ?_, ?_, ?_, ?_⟩, ?_, hlive, hcode⟩
  · intro d s' h' u
    rw [hrefs h' u, uses, hlive u]
    cases f.live? u <;> simp
  · intro u x' hu d hd
    rw [hlive] at hu
    obtain ⟨x, hx, rfl⟩ := Option.map_eq_some_iff.mp hu
    rw [Payload.operands_rename] at hd
    obtain ⟨d, hmem, rfl⟩ := List.mem_map.mp hd
    rw [hat]
    exact hops hx d hmem
  · intro i s' h' hne
    obtain ⟨h, -⟩ | ⟨s, t, h, ht⟩ := hpair i
    · have := hat i
      simp [h, h'] at this
    · obtain rfl : s' = t := Option.some.inj (h'.symm.trans ht)
      have hblock := (hslot h h').1
      rw [hblock] at hne ⊢
      obtain ⟨l, hl, hmem⟩ := hf.placed h hne
      exact ⟨l, by rw [hcode, hl], hmem⟩
  · intro b l hl
    rw [hcode] at hl
    exact hf.nodup hl
  · intro b l hl i hi
    rw [hcode] at hl
    obtain ⟨s, hs, hblock, hdead, hv⟩ := hf.code hl i hi
    obtain ⟨h, -⟩ | ⟨t, s', ht, h'⟩ := hpair i
    · simp [h] at hs
    · obtain ⟨hb', hd', hp'⟩ := hslot hs h'
      refine ⟨s', h', hb'.trans hblock, hd'.trans hdead, Payload.asVar_eq_none.mp ?_⟩
      rw [hp', hdead]
      simp only [Bool.false_eq_true, if_false, Payload.rename, asVar_withOperands]
      exact Payload.asVar_eq_none.mpr hv
  · intro j
    rw [varOf?_eq, varOf?_eq]
    rcases hpair j with ⟨h, h'⟩ | ⟨s, s', h, h'⟩
    · rw [h, h']
    · obtain ⟨-, -, hp⟩ := hslot h h'
      rw [h, h', Option.bind_some, Option.bind_some, hp]
      split <;> simp [Payload.rename, asVar_withOperands]

lemma Sound.replaceUses_becomes (hf : Sound f) {old new : Id} (hs : f.at? old = some s)
    (hnew : (f.at? new).isSome ∨ s.refs = []) :
    ∃ f', f.replaceUses old new = .ok f' ∧ f'.slots.size = f.slots.size ∧
      Becomes f f' (fun j => (f.live? j).map (·.rename (instead old new))) f.listing? := by
  let clear : Slot → Slot := fun t => { t with refs := [] }
  have hat : ∀ j, (f.amend old clear).at? j = (f.at? j).map fun t =>
      { t with refs := if j = old then [] else t.refs } := by
    intro j
    rw [at?_amend (nonneg_of_at? hs)]
    by_cases hj : j = old <;> simp [hj, clear]
  have hlive : ∀ u ∈ s.refs, ∃ t, f.at? u = some t ∧ t.dead = false ∧
      s.refs.count u = t.payload.operands.count old := by
    intro u hu
    obtain ⟨x, hx, -⟩ := (hf.mem_refs_iff hs).mp hu
    have hcount := hf.refs hs u
    rw [uses_of_live hx] at hcount
    obtain ⟨t, ht, hd, rfl⟩ := live?_eq_some.mp hx
    exact ⟨t, ht, hd, hcount⟩
  obtain ⟨f', hfold, ⟨slots, rfl⟩, hsize, hat'⟩ :=
    redirects_spec old new s.refs (f := f.amend old clear)
      (hnew.imp_left fun h => by simpa [hat] using h) (by
        intro u hu
        obtain ⟨t, ht, -, hcount⟩ := hlive u hu
        rw [hat, ht]
        exact ⟨_, rfl, hcount.le⟩)
  have hslots : ∀ j, ({ f.amend old clear with slots := slots } : Func).at? j =
      (f.at? j).map fun t => { t with
        payload := t.payload.withOperands
          ((replaceFirst old new)^[s.refs.count j] t.payload.operands)
        refs := (if j = old then [] else t.refs) ++ if j = new then s.refs else [] } := by
    intro j
    rw [hat', hat, Option.map_map]
    rfl
  obtain ⟨hsound, hvars, hlives, hcodes⟩ := hf.renamed { f.amend old clear with slots := slots }
    (fun _ => instead old new) rfl
    (fun j => by rw [hslots, Option.isSome_map])
    (by
      intro j t t' ht ht'
      rw [hslots, ht] at ht'
      obtain rfl := Option.some.inj ht'
      refine ⟨rfl, rfl, ?_⟩
      have hcount := hf.refs hs j
      cases hd : t.dead with
      | true =>
        rw [uses_of_none (by simp [live?_of_at? ht, hd])] at hcount
        simp [hcount]
      | false =>
        rw [uses_of_live (x := t.payload) (by simp [live?_of_at? ht, hd])] at hcount
        simp only [hcount, iterate_replaceFirst, Bool.false_eq_true, if_false]
        rfl)
    (by
      intro d t' ht' u
      rw [hslots] at ht'
      obtain ⟨t, ht, rfl⟩ := Option.map_eq_some_iff.mp ht'
      have hd := hf.refs ht u
      have hold := hf.refs hs u
      unfold uses at hd hold
      cases hu : f.live? u with
      | none => by_cases h : d = old <;> by_cases h' : d = new <;> simp_all
      | some x =>
        simp only [Option.map_some, Option.getD_some, count_map_instead]
        by_cases h : d = old <;> by_cases h' : d = new <;> simp_all)
    (by
      intro u x hu d hd
      by_cases h : d = old
      · subst h
        rw [instead_self]
        refine hnew.resolve_right fun hnil => ?_
        have := (hf.mem_refs_iff hs).mpr ⟨x, hu, hd⟩
        simp [hnil] at this
      · rw [instead_of_ne h]
        exact hf.operands hu d hd)
  refine ⟨_, ?_, ?_, ⟨slots, f.blocks, rfl⟩, hsound, hvars, rfl, hlives, hcodes⟩
  · unfold replaceUses
    rw [refs_of_at? hs, ok_bind, updateSlot_eq hs, ok_bind]
    exact hfold
  · simpa [amend] using hsize

lemma count_erase_append (p q : Prop) [Decidable p] [Decidable q] (user u : Id) (r : List Id) :
    ((if p then r.erase user else r) ++ if q then [user] else []).count u =
      r.count u - (if p ∧ u = user then 1 else 0) + (if q ∧ u = user then 1 else 0) := by
  rw [List.count_append]
  by_cases hu : u = user
  · subst hu
    by_cases hp : p <;> by_cases hq : q <;> simp [hp, hq]
  · have hu' : (user == u) = false := by simpa using fun h => hu h.symm
    by_cases hp : p <;> by_cases hq : q <;>
      simp [hp, hq, hu, hu', List.count_erase_of_ne hu, List.count_cons]

lemma moveRefs_spec {old : Id} (new user : Id) {n : Nat} (hs : f.at? old = some s)
    (hn : n ≤ s.refs.count user) (hnew : (f.at? new).isSome ∨ n = 0) :
    ∃ f', f.moveRefs old new user n = .ok f' ∧ (∃ slots, f' = { f with slots := slots }) ∧
      f'.slots.size = f.slots.size ∧ ∀ j, ∃ g : List Id → List Id,
        f'.at? j = (f.at? j).map (fun t => { t with refs := g t.refs }) ∧
        ∀ t, f.at? j = some t → ∀ u, (g t.refs).count u =
          t.refs.count u - (if j = old ∧ u = user then n else 0) +
            (if j = new ∧ u = user then n else 0) := by
  induction n generalizing f s with
  | zero => exact ⟨f, rfl, ⟨f.slots, rfl⟩, rfl, fun j => ⟨id, by simp, by simp⟩⟩
  | succ n ih =>
    have hnew : (f.at? new).isSome := hnew.resolve_right (by simp)
    let drop : Slot → Slot := fun t => { t with refs := t.refs.erase user }
    let add : Slot → Slot := fun t => { t with refs := t.refs ++ [user] }
    have hmem : user ∈ s.refs := by
      rw [← List.count_pos_iff]
      omega
    have hat1 := at?_amend (f := f) (nonneg_of_at? hs) drop
    have hat2 := at?_amend (f := f.amend old drop) (at?_isSome.mp hnew).1 add
    have hstep : ((f.removeRef old user) >>= fun g => g.addRef new user) =
        .ok ((f.amend old drop).amend new add) := by
      rw [removeRef_eq_ok.mpr ⟨s, hs, hmem, rfl⟩, ok_bind, addRef_eq_ok]
      refine ⟨?_, rfl⟩
      rw [hat1]
      split <;> simpa using hnew
    let one : Id → List Id → List Id := fun j r =>
      (if j = old then r.erase user else r) ++ if j = new then [user] else []
    have hat : ∀ j, ((f.amend old drop).amend new add).at? j =
        (f.at? j).map fun t => { t with refs := one j t.refs } := by
      intro j
      rw [hat2, hat1]
      by_cases hj : j = new <;> by_cases hjo : j = old <;> cases f.at? j <;>
        simp_all [one, drop, add]
    have hone : ∀ (j : Id) (r : List Id) (u : Id), (one j r).count u =
        r.count u - (if j = old ∧ u = user then 1 else 0) + (if j = new ∧ u = user then 1 else 0) :=
      fun j r u => count_erase_append _ _ user u r
    obtain ⟨f', hrest, ⟨slots, hslots⟩, hsize, hspec⟩ :=
      ih (f := (f.amend old drop).amend new add) (s := { s with refs := one old s.refs })
        (by rw [hat, hs]; rfl)
        (by
          have := hone old s.refs user
          simp only [and_true, if_true] at this
          simp only [this]
          omega)
        (Or.inl (by rw [hat, Option.isSome_map]; exact hnew))
    refine ⟨f', ?_, ⟨slots, hslots⟩, by simpa [amend] using hsize, ?_⟩
    · rw [moveRefs]
      have := congrArg (fun r => r >>= fun g => g.moveRefs old new user n) hstep
      simpa only [bind_assoc, ok_bind, hrest] using this
    · intro j
      obtain ⟨g, hg, hcount⟩ := hspec j
      refine ⟨fun r => g (one j r), by rw [hg, hat, Option.map_map]; rfl, ?_⟩
      intro t ht u
      have hnext := hcount { t with refs := one j t.refs } (by rw [hat, ht]; rfl) u
      simp only at hnext
      rw [hnext, hone]
      by_cases hu : u = user
      · subst hu
        by_cases hjo : j = old
        · subst hjo
          obtain rfl : s = t := Option.some.inj (hs.symm.trans ht)
          by_cases hj : j = new
          · subst hj
            simp only [true_and, if_true]
            omega
          · simp only [hj, true_and, false_and, if_true, if_false]
            omega
        · by_cases hj : j = new
          · subst hj
            simp only [hjo, true_and, false_and, if_true, if_false]
            omega
          · simp [hj, hjo]
      · simp [hu]

lemma Sound.replaceUse_spec (hf : Sound f) {user old new : Id} {x : Payload}
    (hx : f.live? user = some x) (hold : (f.at? old).isSome)
    (hnew : (f.at? new).isSome ∨ old ∉ x.operands) :
    ∃ f', f.replaceUse user old new = .ok f' ∧ (∃ slots, f' = { f with slots := slots }) ∧
      f'.slots.size = f.slots.size ∧ ∀ j, ∃ g : List Id → List Id,
        f'.at? j = (f.at? j).map (fun r => { r with
          payload := if j = user then x.rename (instead old new) else r.payload
          refs := g r.refs }) ∧
        ∀ r, f.at? j = some r → ∀ u, (g r.refs).count u =
          r.refs.count u - (if j = old ∧ u = user then x.operands.count old else 0) +
            (if j = new ∧ u = user then x.operands.count old else 0) := by
  obtain ⟨s, hs⟩ := Option.isSome_iff_exists.mp hold
  obtain ⟨t, ht, -, rfl⟩ := live?_eq_some.mp hx
  let turn : Slot → Slot := fun r => { r with payload := t.payload.rename (instead old new) }
  have hat := at?_amend (f := f) (nonneg_of_at? ht) turn
  have hcount : s.refs.count user = t.payload.operands.count old := by
    rw [hf.refs hs, uses_of_live hx]
  obtain ⟨s', hs', hrefs⟩ : ∃ s', (f.amend user turn).at? old = some s' ∧ s'.refs = s.refs := by
    rw [hat, hs]
    by_cases h : old = user <;> simp [h, turn]
  have hnew' : ((f.amend user turn).at? new).isSome ∨ t.payload.operands.count old = 0 := by
    refine hnew.imp (fun h => ?_) List.count_eq_zero.mpr
    rw [hat]
    split <;> simpa using h
  obtain ⟨f', hmove, ⟨slots, rfl⟩, hsize, hspec⟩ :=
    moveRefs_spec new user hs' (by rw [hrefs, hcount]) hnew'
  refine ⟨_, ?_, ⟨slots, rfl⟩, by simpa [amend] using hsize, fun j => ?_⟩
  · unfold replaceUse
    rw [payload_of_live hx, ok_bind]
    simp only [updateSlot_eq ht, ok_bind]
    exact hmove
  · obtain ⟨g, hg, hc⟩ := hspec j
    refine ⟨g, ?_, fun r hr u => ?_⟩
    · refine hg.trans ?_
      rw [hat]
      by_cases h : j = user <;> cases f.at? j <;> simp [h, turn]
    · have := hc (if j = user then turn r else r) (by rw [hat, hr]; split <;> rfl) u
      by_cases h : j = user <;> simpa [h, turn] using this

lemma Sound.replaceUse_becomes (hf : Sound f) {user old new : Id} {x : Payload}
    (hx : f.live? user = some x) (hold : (f.at? old).isSome)
    (hnew : (f.at? new).isSome ∨ old ∉ x.operands) :
    ∃ f', f.replaceUse user old new = .ok f' ∧ f'.slots.size = f.slots.size ∧
      Becomes f f' (Function.update f.live? user (some (x.rename (instead old new))))
        f.listing? := by
  obtain ⟨f', hrun, ⟨slots, hf'⟩, hsize, hslots⟩ := hf.replaceUse_spec hx hold hnew
  let σ : Id → Id → Id := fun u => if u = user then instead old new else id
  obtain ⟨hsound, hvars, hlives, hcodes⟩ := hf.renamed f' σ (by rw [hf'])
    (by
      intro j
      obtain ⟨g, hg, -⟩ := hslots j
      rw [hg, Option.isSome_map])
    (by
      intro j r r' hr hr'
      obtain ⟨g, hg, -⟩ := hslots j
      rw [hg, hr] at hr'
      obtain rfl := Option.some.inj hr'
      refine ⟨rfl, rfl, ?_⟩
      by_cases h : j = user
      · subst h
        obtain ⟨t, ht, hdead, rfl⟩ := live?_eq_some.mp hx
        obtain rfl : t = r := Option.some.inj (ht.symm.trans hr)
        simp [hdead, σ]
      · simp [h, σ, Payload.rename])
    (by
      intro d r' hr' u
      obtain ⟨g, hg, hc⟩ := hslots d
      rw [hg] at hr'
      obtain ⟨r, hr, rfl⟩ := Option.map_eq_some_iff.mp hr'
      have hd := hf.refs hr u
      simp only
      rw [hc r hr u, hd]
      by_cases hu : u = user
      · subst hu
        rw [hx]
        simp only [Option.map_some, Option.getD_some, σ, if_true, count_map_instead, and_true]
        rw [uses_of_live hx]
        by_cases h : d = old
        · subst h
          simp
        · simp [h]
      · simp only [hu, and_false, if_false, σ, uses]
        cases f.live? u <;> simp)
    (by
      intro u y hu d hd
      by_cases h : u = user
      · subst h
        obtain rfl : x = y := Option.some.inj (hx.symm.trans hu)
        simp only [σ, if_true]
        by_cases hdo : d = old
        · subst hdo
          rw [instead_self]
          exact hnew.resolve_right (by simpa using hd)
        · rw [instead_of_ne hdo]
          exact hf.operands hu d hd
      · simp only [σ, h, if_false, id]
        exact hf.operands hu d hd)
  refine ⟨f', hrun, hsize, ⟨slots, f.blocks, hf'⟩, hsound, hvars, by rw [hf'], fun j => ?_, hcodes⟩
  rw [hlives, Function.update_apply]
  by_cases h : j = user
  · subst h
    simp [hx, σ]
  · simp only [h, if_false, σ]
    cases f.live? j <;> simp [Payload.rename]

end Accumulator.Flow.Func
