import Mathlib
import Accumulator.Proofs.Registers

/-!
# Spilled values are in place

When all values are spilled, each instruction comes right behind the loads of the values that it
needs, in the order of their computation, and each value comes right before its store. `Staged` says
how far the spilling of some values has brought this. So operands are where the machine code looks
for them, and coalescing leaves them there.
-/

namespace Accumulator.Flow.Func

variable {f f' g g' : Func} {id i u : Int} {b c : BlockId} {x : Payload} {v : Id}
  {ids vs us l m pre post : List Id}

/-- What stands in the place of instruction `j` when `id` is spilled. -/
def around (n : Nat) (us : List Id) (id j : Id) : List Id :=
  (if j ∈ us then [fillOf n us j] else []) ++
    j :: (if j = id then [((n + 1 + us.length : Nat) : Int)] else [])

lemma around_of_not_mem {n : Nat} {j : Id} (hus : j ∉ us) (hid : j ≠ id) :
    around n us id j = [j] := by
  simp [around, hus, hid]

lemma flatMap_around {n : Nat} (h : ∀ j ∈ l, j ∉ us ∧ j ≠ id) : l.flatMap (around n us id) = l := by
  induction l with
  | nil => rfl
  | cons j l ih =>
    obtain ⟨hus, hid⟩ := h j (by simp)
    rw [List.flatMap_cons, around_of_not_mem hus hid, ih fun k hk => h k (by simp [hk])]
    rfl

namespace Spills

lemma listing_around (hs : Spills f f' id b pre post us) (h : Spillable f id b pre post)
    (hc : f.Reaches c) (hl : f.listing? c = some l) :
    f'.listing? c = some (l.flatMap (around f.slots.size us id)) := by
  by_cases hcb : c = b
  · subst hcb
    obtain rfl := Option.some.inj (h.here.symm.trans hl)
    obtain ⟨hpre, hpost⟩ := h.sound.not_mem_pre h.here
    have hfills : post.flatMap (around f.slots.size us id) = withFills f.slots.size us post := by
      refine List.flatMap_congr fun j hj => ?_
      have hne : j ≠ id := by
        rintro rfl
        exact hpost hj
      by_cases hus : j ∈ us <;> simp [around, hus, hne]
    rw [hs.listing_here h, List.flatMap_append, List.flatMap_cons, hfills, flatMap_around]
    · simp [around, hs.self_not_mem h]
    · intro j hj
      refine ⟨fun hus => hs.not_mem_pre h hus hj, ?_⟩
      rintro rfl
      exact hpre hj
  · rw [hs.listing_there h hc hcb, hl, flatMap_around]
    intro j hj
    refine ⟨fun hus => hcb (hs.user_behind h hus hc hl hj).1, ?_⟩
    rintro rfl
    exact hcb (h.sound.block_unique hl hj h.here (by simp))

lemma users_fill (hs : Spills f f' id b pre post us) (h : Spillable f id b pre post) (hu : u ∈ us) :
    f'.users (fillOf f.slots.size us u) = {u} := by
  have hbounds := fillOf_bounds (n := f.slots.size) hu
  have hid : id < f.slots.size := h.sound.lt_size_of_mem h.here (by simp)
  ext w
  constructor
  · rintro ⟨y, hy, hop⟩
    rcases hs.live_cases hy with ⟨x, hx, rfl⟩ | ⟨-, rfl⟩ | ⟨k, -, -, rfl⟩ | ⟨-, rfl⟩
    · rw [Payload.operands_rename, List.mem_map] at hop
      obtain ⟨d, hd, hdu⟩ := hop
      by_cases h0 : d = id
      · subst h0
        rw [instead_self] at hdu
        exact fillOf_inj ((hs.users w).mpr ⟨x, hx, hd⟩) hdu
      · rw [instead_of_ne h0] at hdu
        have hlt := (at?_isSome.mp (h.sound.operands hx d hd)).2
        rw [hdu] at hlt
        omega
    · simp [Payload.operands] at hop
    · have : fillOf f.slots.size us u = f.slots.size := by simpa [Payload.operands] using hop
      omega
    · have : fillOf f.slots.size us u = f.slots.size ∨ fillOf f.slots.size us u = id := by
        simpa [Payload.operands] using hop
      omega
  · rintro rfl
    obtain ⟨x, hx, hop⟩ := (hs.users w).mp hu
    refine ⟨_, hs.live_old hx, ?_⟩
    rw [Payload.operands_rename, List.mem_map]
    exact ⟨id, hop, instead_self _ _⟩

end Spills

lemma Reloads.lt_size (h : Reloads f i) : i < f.slots.size := by
  obtain ⟨v, w, hload, -⟩ := h
  exact lt_size_of_live hload

/-- The values that an instruction needs are computed before it in its block, in their order; all
other operands are variables, and nothing is loaded for the second register. -/
structure Arranged (f : Func) : Prop where
  needs : ∀ {c l u x}, f.Reaches c → f.listing? c = some l → u ∈ l → f.live? u = some x →
    (f.needs x).Sublist (l.filter f.producesAt)
  named : ∀ {u x}, f.Runs u → f.live? u = some x → ∀ d ∈ f.named x, (f.varOf? d).isSome
  unpaired : ∀ {u s}, f.Runs u → f.live? u ≠ some (.loadPair s)

/-- The values `ids` of `f` were spilled in `g`. The loads stand before their users in the order of
`ids`, the stores behind the values. -/
structure Staged (f : Func) (ids : List Id) (g : Func) : Prop where
  user : ∀ {c l u x}, f.Reaches c → f.listing? c = some l → u ∈ l → f.live? u = some x →
    ∃ σ p q, g.live? u = some (x.rename σ) ∧
      g.listing? c = some (p ++ (ids.filter (· ∈ f.needs x)).map σ ++ u :: q) ∧
      (∀ d ∈ x.operands, d ∉ ids → σ d = d) ∧
      ∀ d ∈ f.needs x, d ∈ ids →
        @LE.le Int _ f.slots.size (σ d) ∧ Reloads g (σ d) ∧ g.users (σ d) = {u}
  value : ∀ i ∈ ids, ∃ c p q st v, f.Reaches c ∧ g.listing? c = some (p ++ i :: st :: q) ∧
    g.live? st = some (.store v i) ∧ (g.varOf? v).isSome
  new : ∀ {c m} {j : Int}, f.Reaches c → g.listing? c = some m → j ∈ m → f.slots.size ≤ j →
    (Reloads g j ∧ ∃ u ∈ m, g.users j = {u}) ∨
      ∃ i ∈ ids, ∃ v, g.live? j = some (.store v i) ∧ (g.varOf? v).isSome

lemma Staged.refl (hf : Sound f) : Staged f [] f where
  user {c l u x} _ hl hu hx := by
    obtain ⟨p, q, rfl⟩ := List.append_of_mem hu
    exact ⟨fun d => d, p, q, by rw [Payload.rename_of_fixed fun _ _ => rfl, hx], by simpa using hl,
      fun _ _ _ => rfl, by simp⟩
  value := by simp
  new {c m j} _ hm hj hle := absurd (hf.lt_size_of_mem hm hj) (by omega)

section Step

variable (hf : Sound f) (ha : Arranged f) (hsp : Spillable g id b pre post)
  (hs : Spills g g' id b pre post us) (hlt : id < f.slots.size)

include hsp in
lemma Spillable.ne_var {w : Id} (hw : (g.varOf? w).isSome) : w ≠ id := by
  rintro rfl
  rw [hsp.varOf?_eq_none] at hw
  cases hw

include hsp in
lemma Spillable.reload_not_mem (hs : Spills g g' id b pre post us) {j : Id} (hj : Reloads g j) :
    j ∉ us := by
  intro hus
  obtain ⟨w, w', hload, hw, -⟩ := hj
  obtain ⟨y, hy, hop⟩ := (hs.users j).mp hus
  obtain rfl := Option.some.inj (hy.symm.trans hload)
  have hid : id = w := by simpa [Payload.operands] using hop
  exact hsp.ne_var (by rw [hw]; rfl) hid.symm

include hsp in
lemma Spillable.store_not_mem (hs : Spills g g' id b pre post us) {st : Id}
    (hst : g.live? st = some (.store v i)) (hv : (g.varOf? v).isSome) (hne : i ≠ id) :
    st ∉ us ∧ st ≠ id ∧ g'.live? st = some (.store v i) ∧ (g'.varOf? v).isSome := by
  have hvne := hsp.ne_var hv
  refine ⟨?_, ?_, ?_, hs.varOf?_isSome hv⟩
  · intro hus
    obtain ⟨y, hy, hop⟩ := (hs.users st).mp hus
    obtain rfl := Option.some.inj (hy.symm.trans hst)
    have hid : id = v ∨ id = i := by simpa [Payload.operands] using hop
    rcases hid with rfl | rfl
    · exact hvne rfl
    · exact hne rfl
  · rintro rfl
    obtain ⟨y, hy, hp⟩ := hsp.produces
    obtain rfl := Option.some.inj (hy.symm.trans hst)
    cases hp
  · rw [hs.live_old hst]
    simp [Payload.rename, Payload.operands, Payload.withOperands, instead_of_ne hvne,
      instead_of_ne hne]

lemma Arranged.needs_of_producer (ha : Arranged f) (hf : Sound f) {x : Payload} {d : Id}
    (hu : f.Runs u) (hx : f.live? u = some x) (hd : d ∈ x.operands) (hp : f.Producer d) :
    d ∈ f.needs x := by
  obtain ⟨c, l, y, -, hl, hmem, -⟩ := hp
  refine ((mem_operands_iff f).mp hd).resolve_right fun hn => ?_
  have hvar := ha.named hu hx d hn
  rw [hf.varOf?_of_mem hl hmem] at hvar
  cases hvar

include hs in
lemma Spills.mem_users_of_rename {x : Payload} {σ : Id → Id} (hx : g.live? u = some (x.rename σ))
    (hσ : ∀ {d}, d ∈ x.operands → (σ d = id ↔ d = id)) : u ∈ us ↔ id ∈ x.operands := by
  rw [hs.users]
  constructor
  · rintro ⟨y, hy, hop⟩
    obtain rfl := Option.some.inj (hy.symm.trans hx)
    rw [Payload.operands_rename, List.mem_map] at hop
    obtain ⟨d, hd, hid⟩ := hop
    obtain rfl := (hσ hd).mp hid
    exact hd
  · intro hd
    refine ⟨_, hx, ?_⟩
    rw [Payload.operands_rename, List.mem_map]
    exact ⟨id, hd, (hσ hd).mpr rfl⟩

include hf ha hsp hs hlt in
lemma Staged.user_step (h : Staged f ids g) (hp : SpillProgress f ids vs g) (hid : id ∉ ids)
    (hids : ∀ i ∈ ids, f.Producer i) (hidp : f.Producer id) {x : Payload} (hc : f.Reaches c)
    (hl : f.listing? c = some l) (hu : u ∈ l) (hx : f.live? u = some x) :
    ∃ σ p q, g'.live? u = some (x.rename σ) ∧
      g'.listing? c = some (p ++ ((ids ++ [id]).filter (· ∈ f.needs x)).map σ ++ u :: q) ∧
      (∀ d ∈ x.operands, d ∉ ids ++ [id] → σ d = d) ∧
      ∀ d ∈ f.needs x, d ∈ ids ++ [id] →
        @LE.le Int _ f.slots.size (σ d) ∧ Reloads g' (σ d) ∧ g'.users (σ d) = {u} := by
  have hslots := hp.slots
  obtain ⟨σ, p, q, hlive, hlisting, hfix, hloads⟩ := h.user hc hl hu hx
  have hneeds : ∀ {d}, d ∈ x.operands → f.Producer d → d ∈ f.needs x :=
    ha.needs_of_producer hf ⟨c, l, hc, hl, hu⟩ hx
  have hσid : ∀ {d}, d ∈ x.operands → (σ d = id ↔ d = id) := by
    intro d hd
    by_cases hdi : d ∈ ids
    · have hge := (hloads d (hneeds hd (hids d hdi)) hdi).1
      refine ⟨fun hσ => ?_, fun hσ => absurd (hσ ▸ hdi) hid⟩
      rw [hσ] at hge
      omega
    · rw [hfix d hd hdi]
  have huser : u ∈ us ↔ id ∈ f.needs x :=
    (hs.mem_users_of_rename hlive hσid).trans
      ⟨fun hd => hneeds hd hidp, fun hn => (mem_operands_iff f).mpr (Or.inl hn)⟩
  have hold : ∀ {d}, d ∈ x.operands → d ≠ id →
      instead id (fillOf g.slots.size us u) (σ d) = σ d :=
    fun hd hne => instead_of_ne fun hσ => hne ((hσid hd).mp hσ)
  have hmap : (ids.filter (· ∈ f.needs x)).map (instead id (fillOf g.slots.size us u) ∘ σ) =
      (ids.filter (· ∈ f.needs x)).map σ := by
    refine List.map_congr_left fun d hd => ?_
    obtain ⟨hdi, hdn⟩ := List.mem_filter.mp hd
    refine hold ((mem_operands_iff f).mpr (Or.inl (by simpa using hdn))) ?_
    rintro rfl
    exact hid hdi
  have hstay : ((ids.filter (· ∈ f.needs x)).map σ).flatMap (around g.slots.size us id) =
      (ids.filter (· ∈ f.needs x)).map σ := by
    refine flatMap_around fun j hj => ?_
    obtain ⟨d, hd, rfl⟩ := List.mem_map.mp hj
    obtain ⟨hdi, hdn⟩ := List.mem_filter.mp hd
    obtain ⟨hge, hre, -⟩ := hloads d (by simpa using hdn) hdi
    have hne : σ d ≠ id := by
      intro hσ
      rw [hσ] at hge
      omega
    exact ⟨hsp.reload_not_mem hs hre, hne⟩
  refine ⟨instead id (fillOf g.slots.size us u) ∘ σ,
    p.flatMap (around g.slots.size us id),
    (if u = id then [((g.slots.size + 1 + us.length : Nat) : Int)] else []) ++
      q.flatMap (around g.slots.size us id), ?_, ?_, ?_, ?_⟩
  · rw [hs.live_old hlive, Payload.rename_rename]
  · rw [hs.listing_around hsp (hp.reaches_iff.mpr hc) hlisting, List.flatMap_append,
      List.flatMap_append, List.flatMap_cons, hstay, List.filter_append, List.map_append, hmap]
    by_cases hn : id ∈ f.needs x
    · have hfill : instead id (fillOf g.slots.size us u) (σ id) = fillOf g.slots.size us u := by
        rw [(hσid ((mem_operands_iff f).mpr (Or.inl hn))).mpr rfl, instead_self]
      simp [around, huser.mpr hn, hn, hfill]
    · simp [around, mt huser.mp hn, hn]
  · intro d hd hdn
    simp only [List.mem_append, List.mem_singleton, not_or] at hdn
    rw [Function.comp_apply, hfix d hd hdn.1, instead_of_ne hdn.2]
  · intro d hd hdi
    have hdop := (mem_operands_iff f).mpr (Or.inl hd)
    rw [Function.comp_apply]
    by_cases hdid : d = id
    · subst hdid
      have hus := huser.mpr hd
      have hbounds := fillOf_bounds (n := g.slots.size) hus
      rw [(hσid hdop).mpr rfl, instead_self]
      exact ⟨by omega, ⟨g.slots.size, spillVariable, hs.live_fill hus, by rw [hs.vars, if_pos rfl],
        rfl⟩, hs.users_fill hsp hus⟩
    · have hdids : d ∈ ids := by simpa [hdid] using hdi
      obtain ⟨hge, hre, husers⟩ := hloads d hd hdids
      rw [hold hdop hdid, hs.users_eq hre.lt_size (by omega)]
      exact ⟨hge, hs.reloads hsp hre, husers⟩

include hf ha hsp hs hlt in
lemma Staged.step (h : Staged f ids g) (hp : SpillProgress f ids vs g) (hid : id ∉ ids)
    (hids : ∀ i ∈ ids, f.Producer i) (hidp : f.Producer id) : Staged f (ids ++ [id]) g' := by
  have hslots := hp.slots
  have hne : ∀ i ∈ ids, i ≠ id := by
    rintro i hi rfl
    exact hid hi
  constructor
  · intro c l u x hc hl hu hx
    exact h.user_step hf ha hsp hs hlt hp hid hids hidp hc hl hu hx
  · intro i hmem
    rcases List.mem_append.mp hmem with hi | hi
    · obtain ⟨c, p, q, st, v, hc, hl, hst, hv⟩ := h.value i hi
      obtain ⟨hus, hsid, hst', hv'⟩ := hsp.store_not_mem hs hst hv (hne i hi)
      refine ⟨c, p.flatMap (around g.slots.size us id) ++
        (if i ∈ us then [fillOf g.slots.size us i] else []),
        q.flatMap (around g.slots.size us id), st, v, hc, ?_, hst', hv'⟩
      rw [hs.listing_around hsp (hp.reaches_iff.mpr hc) hl, List.flatMap_append, List.flatMap_cons,
        List.flatMap_cons, around_of_not_mem hus hsid]
      simp [around, hne i hi]
    · obtain rfl : i = id := by simpa using hi
      exact ⟨b, pre, _, _, g.slots.size, hp.reaches_iff.mp hsp.reaches, hs.listing_here hsp,
        hs.live_store, by rw [hs.vars, if_pos rfl]; rfl⟩
  · intro c m' j hc hm' hj hle
    obtain ⟨m, hm⟩ := exists_listing hs.blocks.symm hm'
    rcases (hs.mem_listing hsp hm hm').mp hj with hjm | ⟨w, hwm, hw, rfl⟩ | ⟨-, rfl⟩
    · rcases h.new hc hm hjm hle with ⟨hre, u, hu, husers⟩ | ⟨i, hi, v, hst, hv⟩
      · refine Or.inl ⟨hs.reloads hsp hre, u, (hs.mem_listing hsp hm hm').mpr (Or.inl hu), ?_⟩
        rw [hs.users_eq hre.lt_size (by omega), husers]
      · obtain ⟨-, -, hst', hv'⟩ := hsp.store_not_mem hs hst hv (hne i hi)
        exact Or.inr ⟨i, by simp [hi], v, hst', hv'⟩
    · exact Or.inl ⟨⟨g.slots.size, spillVariable, hs.live_fill hw, by rw [hs.vars, if_pos rfl], rfl⟩,
        w, (hs.mem_listing hsp hm hm').mpr (Or.inl hwm), hs.users_fill hsp hw⟩
    · exact Or.inr ⟨id, by simp, g.slots.size, hs.live_store, by rw [hs.vars, if_pos rfl]; rfl⟩

end Step

lemma SpillChain.staged (hf : Sound f) (hframed : Framed f) (hw : WellFormed f) (ha : Arranged f)
    (h : SpillChain f ids g) (hids : ∀ i ∈ ids, f.Producer i) : Staged f ids g := by
  induction h with
  | refl => exact .refl hf
  | tail hchain hsp hs hid hlt ih =>
    obtain ⟨vs, hp⟩ := hchain.progress hf hframed hw
    have hold := fun i hi => hids i (List.mem_append_left _ hi)
    exact (ih hold).step hf ha hsp hs hlt hp hid hold (hids _ (by simp))

lemma filter_mem_of_sublist (h : l.Sublist m) (hnd : m.Nodup) : m.filter (· ∈ l) = l := by
  induction h with
  | slnil => rfl
  | @cons l m a hsub ih =>
    obtain ⟨ham, hnd⟩ := List.nodup_cons.mp hnd
    have hal : a ∉ l := fun hmem => ham (hsub.subset hmem)
    rw [List.filter_cons_of_neg (by simpa using hal), ih hnd]
  | @cons_cons l m a hsub ih =>
    obtain ⟨ham, hnd⟩ := List.nodup_cons.mp hnd
    rw [List.filter_cons_of_pos (by simp)]
    congr 1
    rw [← ih hnd]
    refine List.filter_congr fun k hk => ?_
    have hka : k ≠ a := fun hka => ham (hka ▸ hk)
    simp [hka, hk]

lemma needs_length_le (f : Func) (x : Payload) : (f.needs x).length ≤ 2 := by
  cases x <;> simp only [needs] <;> (try split) <;> simp

lemma offers_of_reloads (hm : ∀ d ∈ m, Reloads f d) (hlen : m.length ≤ 2) :
    (f.held (pre ++ m)).Offers m := by
  have hload : ∀ {p : List Id} {d : Id}, d ∈ m → f.held (p ++ [d]) = ⟨some d, (f.held p).a⟩ := by
    intro p d hd
    obtain ⟨v, w, hload, hv, -⟩ := hm d hd
    exact held_load hload (by rw [hv]; rfl)
  match m, hlen with
  | [], _ => trivial
  | [z], _ =>
    rw [hload (by simp)]
    rfl
  | [y, z], _ =>
    rw [show pre ++ [y, z] = (pre ++ [y]) ++ [z] by simp, hload (by simp), hload (by simp)]
    exact ⟨rfl, rfl⟩

lemma held_value (hx : f.live? i = some x) (hp : x.produces = true) (hn : ∀ s, x ≠ .loadPair s) :
    (f.held (pre ++ [i])).a = some i := by
  rw [held_concat, track_of_live hx]
  cases x with
  | load s =>
    simp only [leaves]
    split <;> rfl
  | loadPair s => exact absurd rfl (hn s)
  | const | loadIndirect | read | elemAddr | elemAddrIndirect | alu => rfl
  | _ => cases hp

section Spilled

variable (hf : Sound f) (hframed : Framed f) (hw : WellFormed f) (ha : Arranged f)
  (h : SpilledAll f ids g)
include hf hframed hw ha h

lemma SpilledAll.stored (hi : i ∈ ids) : ∃ c p q st v x, f.Reaches c ∧
    g.listing? c = some (p ++ i :: st :: q) ∧ g.live? st = some (.store v i) ∧
    (g.varOf? v).isSome ∧ g.users i = {st} ∧ g.live? i = some x ∧ x.produces = true ∧
    ∀ s, x ≠ .loadPair s := by
  obtain ⟨vs, hp⟩ := h.chain.progress hf hframed hw
  have hids := fun i => (h.mem i).mp
  have hst := h.chain.staged hf hframed hw ha hids
  obtain ⟨c, p, q, st, v, hc, hl, hstore, hv⟩ := hst.value i hi
  obtain ⟨v', -, -, st', hst', hall, -⟩ := exists_of_forall₂ hp.spilled hi
  obtain ⟨d, l, x, hd, hld, hil, hx, hprod⟩ := hids i hi
  obtain ⟨σ, hσ⟩ := hp.live hx
  refine ⟨c, p, q, st, v, x.rename σ, hc, hl, hstore, hv, ?_, hσ, ?_, ?_⟩
  · have hsame : st = st' := hall st _ hstore (by simp [Payload.operands])
    ext w
    constructor
    · rintro ⟨y, hy, hop⟩
      rw [hsame]
      exact hall w y hy hop
    · rintro rfl
      exact mem_users_store hstore
  · rw [Payload.produces_rename, hprod]
  · intro s hs
    cases x <;> simp [Payload.rename, Payload.withOperands, Payload.operands] at hs
    exact ha.unpaired ⟨d, l, hd, hld, hil⟩ hx

/-- What stands in spilled code: an old instruction behind the loads of its values, a load, or the
store of the value before it. -/
lemma SpilledAll.cases (hc : f.Reaches c) (hm : g.listing? c = some m) (hu : u ∈ m)
    (hx : g.live? u = some x) :
    ((∃ p q, m = p ++ g.needs x ++ u :: q) ∧ (∀ d ∈ g.needs x, Reloads g d ∧ g.users d = {u}) ∧
        (∀ d ∈ g.named x, (g.varOf? d).isSome) ∧
        (x.produces = true → ∃ st ∈ m, g.users u = {st})) ∨
      (Reloads g u ∧ ∃ w ∈ m, g.users u = {w}) ∨
      ∃ i v y p q, x = .store v i ∧ (g.varOf? v).isSome ∧ m = p ++ i :: u :: q ∧
        g.live? i = some y ∧ y.produces = true ∧ ∀ s, y ≠ .loadPair s := by
  obtain ⟨vs, hp⟩ := h.chain.progress hf hframed hw
  have hids := fun i => (h.mem i).mp
  have hst := h.chain.staged hf hframed hw ha hids
  by_cases hlt : u < f.slots.size
  · left
    obtain ⟨l, hl⟩ := exists_listing hp.blocks.symm hm
    have hul : u ∈ l := (hp.listing hl hm u hlt).mp hu
    have hru : f.Runs u := ⟨c, l, hc, hl, hul⟩
    obtain ⟨y, hy, -⟩ := hf.live_of_mem hl hul
    obtain ⟨σ, p, q, hlive, hlisting, hfix, hloads⟩ := hst.user hc hl hul hy
    obtain rfl := Option.some.inj (hlive.symm.trans hx)
    obtain rfl := Option.some.inj (hlisting.symm.trans hm)
    have hsub : (f.needs y).Sublist ids := (ha.needs hc hl hul hy).trans (h.order c l hc hl)
    have hvar : ∀ d ∈ y.operands, (g.varOf? (σ d)).isSome = (f.varOf? d).isSome := by
      intro d hd
      by_cases hdi : d ∈ ids
      · obtain ⟨c', l', z, hc', hl', hdl, hz, -⟩ := hids d hdi
        have hnone := hf.varOf?_of_mem hl' hdl
        have hneed : d ∈ f.needs y := by
          refine ((mem_operands_iff f).mp hd).resolve_right fun hn => ?_
          have := ha.named hru hy d hn
          rw [hnone] at this
          cases this
        obtain ⟨w, w', hload, -⟩ := (hloads d hneed hdi).2.1
        rw [hnone, varOf?_of_live hload]
        rfl
      · rw [hfix d hd hdi]
        obtain ⟨z, hz⟩ := Option.isSome_iff_exists.mp (hw.operands hy d hd)
        obtain ⟨τ, hτ⟩ := hp.live hz
        rw [varOf?_of_live hz, varOf?_of_live hτ, Payload.rename, asVar_withOperands]
    rw [needs_rename hvar, named_rename hvar]
    refine ⟨⟨p, q, by rw [filter_mem_of_sublist hsub h.nodup]⟩, ?_, ?_, ?_⟩
    · intro d hd
      obtain ⟨e, he, rfl⟩ := List.mem_map.mp hd
      exact (hloads e he (hsub.subset he)).2
    · intro d hd
      obtain ⟨e, he, rfl⟩ := List.mem_map.mp hd
      rw [hvar e ((mem_operands_iff f).mpr (Or.inr he))]
      exact ha.named hru hy e he
    · intro hprod
      rw [Payload.produces_rename] at hprod
      obtain ⟨c', p', q', st, v, z, hc', hl', -, -, husers, -⟩ :=
        h.stored hf hframed hw ha ((h.mem u).mpr ⟨c, l, y, hc, hl, hul, hy, hprod⟩)
      obtain rfl : c' = c := hp.sound.block_unique hl' (i := u) (by simp) hlisting (by simp)
      have heq := Option.some.inj (hl'.symm.trans hlisting)
      exact ⟨st, by rw [← heq]; simp, husers⟩
  · right
    rcases hst.new hc hm hu (by omega) with hre | ⟨i, hi, v, hstore, hv⟩
    · exact Or.inl hre
    · right
      obtain ⟨c', p', q', st, v', y, hc', hl', -, -, husers, hy, hprod, hpair⟩ :=
        h.stored hf hframed hw ha hi
      obtain rfl : u = st := by
        have := mem_users_store hstore
        rwa [husers] at this
      obtain rfl : c' = c := hp.sound.block_unique hl' (i := u) (by simp) hm hu
      exact ⟨i, v, y, p', q', Option.some.inj (hx.symm.trans hstore), hv,
        Option.some.inj (hm.symm.trans hl'), hy, hprod, hpair⟩

/-- In spilled code all values are in place. -/
theorem SpilledAll.settled : Settled g := by
  obtain ⟨vs, hp⟩ := h.chain.progress hf hframed hw
  have hcases := fun {c m u x} (hc : g.Reaches c) => h.cases (c := c) (m := m) (u := u) (x := x)
    hf hframed hw ha (hp.reaches_iff.mp hc)
  have hreload : ∀ {u x}, Reloads g u → g.live? u = some x →
      ∃ v, x = .load v ∧ (g.varOf? v).isSome := by
    rintro u x ⟨v, w, hload, hv, -⟩ hx
    exact ⟨v, Option.some.inj (hx.symm.trans hload), by rw [hv]; rfl⟩
  have hproducer : ∀ {i}, g.Producer i → ∃ c m, g.Reaches c ∧ g.listing? c = some m ∧
      ∃ w ∈ m, g.users i = {w} := by
    rintro i ⟨c, m, x, hc, hm, hi, hx, hprod⟩
    refine ⟨c, m, hc, hm, ?_⟩
    rcases hcases hc hm hi hx with ⟨-, -, -, hused⟩ | ⟨-, hw⟩ | ⟨i, v, y, p, q, rfl, -⟩
    · exact hused hprod
    · exact hw
    · cases hprod
  constructor
  · intro c pre u post x hc hl hx
    rcases hcases hc hl (by simp) hx with ⟨⟨p, q, hpq⟩, hloads, -⟩ | ⟨hre, -⟩ |
      ⟨i, v, y, p, q, rfl, hv, hpq, hy, hprod, hpair⟩
    · obtain ⟨rfl, -⟩ := hp.sound.split_unique hl (hpq ▸ hl)
      exact offers_of_reloads (fun d hd => (hloads d hd).1) (needs_length_le g x)
    · obtain ⟨v, rfl, hv⟩ := hreload hre hx
      rw [needs_load hv]
      trivial
    · obtain ⟨rfl, -⟩ := hp.sound.split_unique hl (show _ = some ((p ++ [i]) ++ u :: q) by
        rw [hl, hpq]; simp)
      rw [needs_store hv]
      exact held_value hy hprod hpair
  · rintro u x ⟨c, m, hc, hm, hu⟩ hx d hd
    rcases hcases hc hm hu hx with ⟨-, -, hnamed, -⟩ | ⟨hre, -⟩ | ⟨i, v, y, p, q, rfl, hv, -⟩
    · exact hnamed d hd
    · obtain ⟨v, rfl, hv⟩ := hreload hre hx
      obtain rfl : d = v := by simpa [Func.named, hv] using hd
      exact hv
    · obtain rfl : d = v := by simpa [Func.named, hv] using hd
      exact hv
  · rintro u x y z ⟨c, m, hc, hm, hu⟩ hx hneeds
    rcases hcases hc hm hu hx with ⟨⟨p, q, hpq⟩, hloads, -⟩ | ⟨hre, -⟩ |
      ⟨i, v, k, p, q, rfl, hv, -⟩
    · refine ⟨(hloads y (by simp [hneeds])).2, ?_⟩
      rintro rfl
      have hnd := hp.sound.nodup hm
      rw [hpq, hneeds] at hnd
      simp [List.nodup_append] at hnd
    · obtain ⟨v, rfl, hv⟩ := hreload hre hx
      simp [needs_load hv] at hneeds
    · simp [needs_store hv] at hneeds
  · intro i hi
    obtain ⟨c, m, -, -, w, -, husers⟩ := hproducer hi
    exact ⟨w, by rw [husers]; rfl⟩
  · intro i u hi hu
    obtain ⟨c, m, hc, hm, w, hw, husers⟩ := hproducer hi
    rw [husers] at hu
    obtain rfl : u = w := hu
    exact ⟨c, m, hc, hm, hw⟩

end Spilled

lemma Spills.storeless (hs : Spills f f' id b pre post us) (h : Spillable f id b pre post)
    (hst : Storeless f) : Storeless f' := by
  have hold : ∀ {d : Id}, (∀ v src, f.live? d ≠ some (.store v src)) → (f.at? d).isSome →
      ∀ v src, f'.live? d ≠ some (.store v src) := by
    intro d hd hat v src hlive
    rcases hs.live_cases hlive with ⟨x, hx, hren⟩ | ⟨-, hvar⟩ | ⟨w, -, -, hload⟩ | ⟨hdn, -⟩
    · cases x <;> simp [Payload.rename, Payload.withOperands, Payload.operands] at hren
      exact hd _ _ hx
    · cases hvar
    · cases hload
    · have := (at?_isSome.mp hat).2
      rw [hdn] at this
      omega
  intro u y hy d hd v src hlive
  rcases hs.live_cases hy with ⟨x, hx, rfl⟩ | ⟨-, rfl⟩ | ⟨w, -, -, rfl⟩ | ⟨-, rfl⟩
  · rw [Payload.operands_rename, List.mem_map] at hd
    obtain ⟨e, he, rfl⟩ := hd
    by_cases h0 : e = id
    · subst h0
      rw [instead_self, hs.live_fill ((hs.users u).mpr ⟨x, hx, he⟩)] at hlive
      cases hlive
    · rw [instead_of_ne h0] at hlive
      exact hold (hst hx e he) (h.sound.operands hx e he) v src hlive
  · simp [Payload.operands] at hd
  · obtain rfl : d = f.slots.size := by simpa [Payload.operands] using hd
    rw [hs.live, if_neg (by omega), if_pos rfl] at hlive
    cases hlive
  · have hdid : d = f.slots.size ∨ d = id := by simpa [Payload.operands] using hd
    rcases hdid with rfl | rfl
    · rw [hs.live, if_neg (by omega), if_pos rfl] at hlive
      cases hlive
    · obtain ⟨x, hx, hp⟩ := h.produces
      refine hold (fun v src hstore => ?_) (at?_isSome_of_live hx) v src hlive
      obtain rfl := Option.some.inj (hx.symm.trans hstore)
      cases hp

lemma SpillChain.storeless (h : SpillChain f ids g) (hst : Storeless f) : Storeless g := by
  induction h with
  | refl => exact hst
  | tail _ hsp hs _ _ ih => exact hs.storeless hsp ih

/-- One instruction is placed before another, in the same block. -/
def Precedes (f : Func) (y z : Id) : Prop := ∃ c l, f.listing? c = some l ∧ [y, z].Sublist l

lemma varOf?_of_producesAt {d : Id} (hp : f.producesAt d = true) : f.varOf? d = none := by
  obtain ⟨x, hx, hp⟩ : ∃ x, f.live? d = some x ∧ x.produces = true := by
    simpa [producesAt, Option.any_eq_true] using hp
  rw [varOf?_of_live hx]
  cases x <;> first | rfl | cases hp

lemma arranged_of_precedes (hf : Sound f) (hw : WellFormed f)
    (hpair : ∀ u s, f.live? u ≠ some (.loadPair s))
    (hvalue : ∀ u x, f.live? u = some x → ∀ d ∈ f.needs x, f.producesAt d = true)
    (hvar : ∀ u x, f.live? u = some x → ∀ d ∈ f.named x, (f.varOf? d).isSome)
    (horder : ∀ u x y z, f.live? u = some x → f.needs x = [y, z] → f.Precedes y z) :
    Arranged f := by
  refine ⟨?_, fun _ hx => hvar _ _ hx, fun _ => hpair _ _⟩
  intro c l u x hc hl hu hx
  have hmem : ∀ d ∈ f.needs x, d ∈ l := by
    intro d hd
    obtain ⟨p, q, rfl⟩ := List.append_of_mem hu
    have hbefore := hw.ordered hc hl hx d ((mem_operands_iff f).mpr (Or.inl hd))
    rw [varOf?_of_producesAt (hvalue u x hx d hd)] at hbefore
    simp [hbefore.resolve_left (by simp)]
  have hsub : (f.needs x).Sublist l := by
    match hn : f.needs x, needs_length_le f x with
    | [], _ => exact List.nil_sublist l
    | [z], _ => exact List.singleton_sublist.mpr (hmem z (by simp [hn]))
    | [y, z], _ =>
      obtain ⟨c', l', hl', hyz⟩ := horder u x y z hx hn
      obtain rfl : c' = c :=
        hf.block_unique hl' (hyz.subset (by simp)) hl (hmem y (by simp [hn]))
      rwa [← Option.some.inj (hl'.symm.trans hl)]
  have hall : (f.needs x).filter f.producesAt = f.needs x :=
    List.filter_eq_self.mpr (hvalue u x hx)
  rw [← hall]
  exact hsub.filter _

end Accumulator.Flow.Func

namespace Accumulator.Flow

open Func

/-- A function that was made by edits and passes its checks has its operands where the machine code
looks for them when it was spilled, and again when it was coalesced then. Before, the values that an
instruction uses have to be computed by instructions, the one for the second register first, and the
rest of its operands are variables. -/
theorem operands_in_place {f : Func} (hmade : Made f) (hverify : f.verify = .ok (.ok ()))
    (hpair : ∀ u s, f.live? u ≠ some (.loadPair s))
    (hvalue : ∀ u x, f.live? u = some x → ∀ d ∈ f.needs x, f.producesAt d = true)
    (hvar : ∀ u x, f.live? u = some x → ∀ d ∈ f.named x, (f.varOf? d).isSome)
    (horder : ∀ u x y z, f.live? u = some x → f.needs x = [y, z] → f.Precedes y z)
    {n : Nat} {f₁ : Func} (hspill : f.spillAll = .ok (n, f₁)) :
    f₁.InPlace ∧ ∃ m f₂, f₁.coalesce = .ok (m, f₂) ∧ f₂.InPlace := by
  obtain ⟨hf, hframed⟩ := hmade.sound
  have hw := hf.verify_iff.mp hverify
  have ha := arranged_of_precedes hf hw hpair hvalue hvar horder
  have hst : Storeless f := by
    intro u x hx d hd v src hstore
    rcases (mem_operands_iff f).mp hd with hn | hn
    · have := hvalue u x hx d hn
      rw [producesAt, hstore] at this
      cases this
    · have := hvar u x hx d hn
      rw [varOf?_of_live hstore] at this
      cases this
  rcases spillAll_cases hf hframed hw with ⟨-, e, he⟩ | ⟨ids, g, hok, hall⟩
  · rw [he] at hspill
    cases hspill
  obtain ⟨-, rfl⟩ := Prod.mk.inj (Except.ok.inj (hok.symm.trans hspill))
  obtain ⟨vs, hp⟩ := hall.chain.progress hf hframed hw
  have hset := hall.settled hf hframed hw ha
  have htidy : Tidy g := ⟨hp.sound, hp.wellFormed, hall.chain.storeless hst⟩
  obtain ⟨m, f₂, hcoalesce, hc, -⟩ := htidy.coalesce_ok hp.framed
  exact ⟨hset.inPlace, m, f₂, hcoalesce, (hc.settled htidy hset).inPlace⟩

/-- A function that reads two numbers and writes the second minus the first. -/
def difference : Func :=
  { name := "main"
    isMain := true
    entry := 0
    blocks := #[#[0, 1, 2, 3, 4]]
    slots := #[
      { payload := .read, block := 0, refs := [2] },
      { payload := .read, block := 0, refs := [2] },
      { payload := .alu .sub 1 0, block := 0, refs := [3] },
      { payload := .write 2, block := 0 },
      { payload := .stop, block := 0 }] }

lemma difference_made : Made difference :=
  Made.straight [] [.read, .read, .alu .sub 1 0, .write 2, .stop] (by decide)

lemma difference_verify : difference.verify = .ok (.ok ()) :=
  verify_single rfl (by decide) (by decide) rfl

/-- The function after its three values were spilled. -/
def differenceSpilled : Func :=
  { difference with
    locals := [5, 8, 11]
    blocks := #[#[0, 7, 1, 10, 6, 9, 2, 13, 12, 3, 4]]
    slots := #[
      { payload := .read, block := 0, refs := [7] },
      { payload := .read, block := 0, refs := [10] },
      { payload := .alu .sub 9 6, block := 0, refs := [13] },
      { payload := .write 12, block := 0 },
      { payload := .stop, block := 0 },
      { payload := .var spillVariable, refs := [6, 7] },
      { payload := .load 5, block := 0, refs := [2] },
      { payload := .store 5 0, block := 0 },
      { payload := .var spillVariable, refs := [9, 10] },
      { payload := .load 8, block := 0, refs := [2] },
      { payload := .store 8 1, block := 0 },
      { payload := .var spillVariable, refs := [12, 13] },
      { payload := .load 11, block := 0, refs := [3] },
      { payload := .store 11 2, block := 0 }] }

lemma difference_spillAll : difference.spillAll = .ok (3, differenceSpilled) :=
  spillAll_single rfl (by decide) (by decide +kernel) (by decide +kernel)

lemma difference_code {u : Id} {x : Payload} (hx : difference.live? u = some x) :
    x = .read ∨ x = .alu .sub 1 0 ∨ x = .write 2 ∨ x = .stop :=
  forall_live (P := fun _ x => x = .read ∨ x = .alu .sub 1 0 ∨ x = .write 2 ∨ x = .stop) (by decide) hx

lemma difference_precedes (x : Payload) (hx : x = .read ∨ x = .alu .sub 1 0 ∨ x = .write 2 ∨ x = .stop)
    {y z : Id} (hn : difference.needs x = [y, z]) : difference.Precedes y z := by
  rcases hx with rfl | rfl | rfl | rfl
  · cases hn
  · cases hn
    exact ⟨0, [0, 1, 2, 3, 4], rfl, by decide⟩
  · cases hn
  · cases hn

/-- The subtrahend is in the second register and the minuend in the accumulator. -/
theorem difference_in_place :
    Made difference ∧ difference.spillAll = .ok (3, differenceSpilled) ∧
      differenceSpilled.held [0, 7, 1, 10, 6, 9] = ⟨some 9, some 6⟩ ∧ differenceSpilled.InPlace ∧
      ∃ m f', differenceSpilled.coalesce = .ok (m, f') ∧ f'.InPlace := by
  refine ⟨difference_made, difference_spillAll, by decide, ?_⟩
  refine operands_in_place difference_made difference_verify (fun u s hu => ?_) (fun u x hx => ?_)
    (fun u x hx => ?_) (fun u x y z hx => difference_precedes x (difference_code hx))
    difference_spillAll
  · simpa using difference_code hu
  · rcases difference_code hx with rfl | rfl | rfl | rfl <;> decide
  · rcases difference_code hx with rfl | rfl | rfl | rfl <;> decide

end Accumulator.Flow
