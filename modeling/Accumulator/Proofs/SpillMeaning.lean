import Mathlib
import Accumulator.Proofs.SpillingRuns
import Accumulator.Proofs.Straight

/-!
# Spilling a function

All values of the blocks that control comes to are spilled, one after the other. `SpillProgress` says
how a function stands to the one that the spilling of some of its values has made of it. It is kept
by each spilling, and in the end gives the form that `checkSpilled` asks for, the growth in size and
the same runs but for the new variables.
-/

namespace Accumulator.Flow

lemma Func.exists_listing {f g : Func} (hb : g.blocks.size = f.blocks.size) {c : BlockId}
    {l : List Id} (hl : f.listing? c = some l) : ∃ m, g.listing? c = some m := by
  have hbounds := bounds_of_listing? hl
  rw [← hb] at hbounds
  exact Option.isSome_iff_exists.mp (listing?_isSome.mpr hbounds)

lemma Payload.produces_rename (σ : Id → Id) (x : Payload) : (x.rename σ).produces = x.produces := by
  cases x <;> rfl

namespace Func

variable {f f' g g' : Func} {id u i v : Int} {b c : BlockId} {pre post us ids vs l m : List Id}

/-- The users of an instruction or a variable. -/
def users (f : Func) (i : Id) : Set Id := { u | ∃ x, f.live? u = some x ∧ i ∈ x.operands }

/-- An instruction that loads a variable made by spilling. -/
def Reloads (f : Func) (j : Id) : Prop :=
  ∃ v w, f.live? j = some (.load v) ∧ f.varOf? v = some w ∧ w.spill = true

/-- A value whose only use is the store into variable `v`, which is else only loaded. -/
def SpilledIn (f : Func) (i v : Id) : Prop :=
  f.varOf? v = some spillVariable ∧ ∃ st, f.live? st = some (.store v i) ∧
    (∀ u x, f.live? u = some x → i ∈ x.operands → u = st) ∧
    ∀ u x, f.live? u = some x → v ∈ x.operands → u = st ∨ x = .load v

/-- A value in the code of a block that control may come to. -/
def Producer (f : Func) (i : Id) : Prop :=
  ∃ b l x, f.Reaches b ∧ f.listing? b = some l ∧ i ∈ l ∧ f.live? i = some x ∧ x.produces = true

namespace Spills

lemma users_eq (hs : Spills f f' id b pre post us) (hi : i < f.slots.size) (hne : i ≠ id) :
    f'.users i = f.users i := by
  ext u
  constructor
  · rintro ⟨y, hy, hop⟩
    rcases hs.live_cases hy with ⟨x, hx, rfl⟩ | ⟨-, rfl⟩ | ⟨w, -, -, rfl⟩ | ⟨-, rfl⟩
    · rw [Payload.operands_rename, List.mem_map] at hop
      obtain ⟨d, hd, rfl⟩ := hop
      by_cases h0 : d = id
      · subst h0
        rw [instead_self] at hi
        have := (fillOf_bounds (n := f.slots.size) ((hs.users u).mpr ⟨x, hx, hd⟩)).1
        omega
      · rw [instead_of_ne h0]
        exact ⟨x, hx, hd⟩
    · simp [Payload.operands] at hop
    · obtain rfl : i = f.slots.size := by simpa [Payload.operands] using hop
      omega
    · have : i = f.slots.size ∨ i = id := by simpa [Payload.operands] using hop
      omega
  · rintro ⟨x, hx, hop⟩
    refine ⟨_, hs.live_old hx, ?_⟩
    rw [Payload.operands_rename, List.mem_map]
    exact ⟨i, hop, instead_of_ne hne⟩

lemma reloads (hs : Spills f f' id b pre post us) (h : Spillable f id b pre post)
    (hi : Reloads f i) : Reloads f' i := by
  obtain ⟨v, w, hx, hv, hw⟩ := hi
  have hne : v ≠ id := by
    rintro rfl
    rw [h.varOf?_eq_none] at hv
    cases hv
  refine ⟨v, w, ?_, ?_, hw⟩
  · rw [hs.live_old hx]
    simp [Payload.rename, Payload.operands, Payload.withOperands, instead_of_ne hne]
  · rw [hs.varOf?_eq (lt_size_of_varOf? (by rw [hv]; rfl)).2, hv]

lemma spilledIn (hs : Spills f f' id b pre post us) (h : Spillable f id b pre post) (hne : i ≠ id)
    (hi : SpilledIn f i v) : SpilledIn f' i v := by
  obtain ⟨hv, st, hst, husers, hloads⟩ := hi
  have hlt : v < f.slots.size := (lt_size_of_varOf? (by rw [hv]; rfl)).2
  have hvne : v ≠ id := by
    rintro rfl
    rw [h.varOf?_eq_none] at hv
    cases hv
  have hilt : i < f.slots.size := by
    obtain ⟨z, hz⟩ := Option.isSome_iff_exists.mp
      (h.wellFormed.operands hst i (by simp [Payload.operands]))
    exact lt_size_of_live hz
  refine ⟨by rw [hs.varOf?_eq hlt, hv], st, ?_, ?_, ?_⟩
  · rw [hs.live_old hst]
    simp [Payload.rename, Payload.operands, Payload.withOperands, instead_of_ne hvne,
      instead_of_ne hne]
  · intro u y hy hop
    have hu : u ∈ f.users i := hs.users_eq hilt hne ▸ (⟨y, hy, hop⟩ : u ∈ f'.users i)
    obtain ⟨x, hx, hop'⟩ := hu
    exact husers u x hx hop'
  · intro u y hy hop
    have hu : u ∈ f.users v := hs.users_eq hlt hvne ▸ (⟨y, hy, hop⟩ : u ∈ f'.users v)
    obtain ⟨x, hx, hop'⟩ := hu
    rcases hloads u x hx hop' with rfl | rfl
    · exact Or.inl rfl
    · right
      rw [hs.live_old hx] at hy
      rw [← Option.some.inj hy]
      simp [Payload.rename, Payload.operands, Payload.withOperands, instead_of_ne hvne]

lemma spilledIn_self (hs : Spills f f' id b pre post us) (h : Spillable f id b pre post) :
    SpilledIn f' id f.slots.size := by
  have hid : id < f.slots.size := h.sound.lt_size_of_mem h.here (by simp)
  refine ⟨by rw [hs.vars, if_pos rfl], _, hs.live_store, ?_, ?_⟩
  · intro u y hy hop
    rcases hs.live_cases hy with ⟨x, hx, rfl⟩ | ⟨-, rfl⟩ | ⟨w, -, -, rfl⟩ | ⟨hu, -⟩
    · rw [Payload.operands_rename, List.mem_map] at hop
      obtain ⟨d, hd, hdid⟩ := hop
      by_cases h0 : d = id
      · subst h0
        rw [instead_self] at hdid
        have hfill : fillOf f.slots.size us u = d := hdid
        have := (fillOf_bounds (n := f.slots.size) ((hs.users u).mpr ⟨x, hx, hd⟩)).1
        omega
      · rw [instead_of_ne h0] at hdid
        exact absurd hdid h0
    · simp [Payload.operands] at hop
    · obtain rfl : id = f.slots.size := by simpa [Payload.operands] using hop
      omega
    · exact hu
  · intro u y hy hop
    rcases hs.live_cases hy with ⟨x, hx, rfl⟩ | ⟨-, rfl⟩ | ⟨w, -, -, rfl⟩ | ⟨hu, -⟩
    · rw [Payload.operands_rename, List.mem_map] at hop
      obtain ⟨d, hd, hdn⟩ := hop
      have hdlt := (at?_isSome.mp (h.sound.operands hx d hd)).2
      by_cases h0 : d = id
      · subst h0
        rw [instead_self] at hdn
        have hfill : fillOf f.slots.size us u = f.slots.size := hdn
        have := (fillOf_bounds (n := f.slots.size) ((hs.users u).mpr ⟨x, hx, hd⟩)).1
        omega
      · rw [instead_of_ne h0] at hdn
        exact absurd hdlt (by rw [hdn]; omega)
    · simp [Payload.operands] at hop
    · exact Or.inr rfl
    · exact Or.inl hu

lemma ncard_users (hs : Spills f f' id b pre post us) : (f.users id).ncard = us.length := by
  have : f.users id = (us.toFinset : Set Id) := by
    ext u
    rw [List.coe_toFinset]
    exact (hs.users u).symm
  rw [this, Set.ncard_coe_finset, List.toFinset_card_of_nodup hs.nodup]

end Spills

/-- Function `g` has come from `f` by the spilling of `ids` into the variables `vs`. -/
structure SpillProgress (f : Func) (ids vs : List Id) (g : Func) : Prop where
  sound : Sound g
  framed : Framed g
  wellFormed : WellFormed g
  leads : ∀ c d, g.Leads c d ↔ f.Leads c d
  entry : g.entry = f.entry
  params : g.params = f.params
  name : g.name = f.name
  isMain : g.isMain = f.isMain
  slots : f.slots.size ≤ g.slots.size
  blocks : g.blocks.size = f.blocks.size
  live : ∀ {j x}, f.live? j = some x → ∃ σ, g.live? j = some (x.rename σ)
  listing : ∀ {c l m}, f.listing? c = some l → g.listing? c = some m →
    ∀ j : Int, j < f.slots.size → (j ∈ m ↔ j ∈ l)
  same : ∀ {c l}, f.Reaches c → f.listing? c = some l → (∀ i ∈ ids, i ∉ l) → g.listing? c = some l
  new : ∀ {c m} {j : Int}, g.listing? c = some m → j ∈ m → f.slots.size ≤ j →
    Reloads g j ∨ ∃ v i, g.live? j = some (.store v i)
  users : ∀ i : Int, i < f.slots.size → i ∉ ids → g.users i = f.users i
  spilled : List.Forall₂ (SpilledIn g) ids vs
  fresh : ∀ v : Int, v ∈ vs → f.slots.size ≤ v ∧ v < g.slots.size
  nodup : vs.Nodup
  locals : g.locals = f.locals ++ vs
  size : g.size = f.size + ids.length + (ids.map fun i => (f.users i).ncard).sum
  runs : ∀ (r : Reading) (k : Nat), r.program.funcs[k]? = some f →
    ¬ Relation.TransGen r.program.Calls k k →
    ∀ j, Reading.SameRuns (vs.map fun v => ⟨k, v.toNat⟩) r (r.withFunc k g) j

namespace SpillProgress

lemma refl (hf : Sound f) (hframed : Framed f) (hw : WellFormed f) :
    SpillProgress f [] [] f where
  sound := hf
  framed := hframed
  wellFormed := hw
  leads _ _ := Iff.rfl
  entry := rfl
  params := rfl
  name := rfl
  isMain := rfl
  slots := le_rfl
  blocks := rfl
  live {j x} hx := ⟨fun d => d, by rw [Payload.rename_of_fixed fun _ _ => rfl, hx]⟩
  listing {c l m} hl hm j _ := by
    obtain rfl : l = m := Option.some.inj (hl.symm.trans hm)
    exact Iff.rfl
  same _ hl _ := hl
  new {c m j} hm hj hle := absurd (hf.lt_size_of_mem hm hj) (by omega)
  users _ _ _ := rfl
  spilled := .nil
  fresh _ hv := by simp at hv
  nodup := List.nodup_nil
  locals := by simp
  size := by simp
  runs r k hk _ j := by
    rw [Reading.withFunc_eq_self hk]
    exact Reading.SameRuns.refl r j

lemma reaches_iff (h : SpillProgress f ids vs g) : g.Reaches c ↔ f.Reaches c := by
  have hleads : g.Leads = f.Leads := by
    funext c d
    exact propext (h.leads c d)
  unfold Reaches
  rw [hleads, h.entry]

lemma calls (h : SpillProgress f ids vs g) (hf : Sound f) {r : Reading} {k p q : Nat}
    (hk : r.program.funcs[k]? = some f) (hc : (r.withFunc k g).program.Calls p q) :
    r.program.Calls p q := by
  obtain ⟨g₀, b, code, u, args, hg, hcode, hu, hp⟩ := hc
  by_cases hpk : p = k
  · subst hpk
    obtain rfl : g = g₀ := Option.some.inj ((Reading.withFunc_self hk).symm.trans hg)
    have hm := code_eq_ok.mp hcode
    obtain ⟨y, hy, -⟩ := h.sound.live_of_mem hm (i := u) (by simpa using hu)
    rw [payload_of_live hy, Except.ok.injEq] at hp
    subst hp
    have hlt : @LT.lt Int _ u f.slots.size := by
      by_contra hge
      rcases h.new hm (by simpa using hu) (by omega) with ⟨v, w, hx, -⟩ | ⟨v, i, hx⟩
      · rw [hy] at hx
        cases hx
      · rw [hy] at hx
        cases hx
    obtain ⟨l, hl⟩ := exists_listing h.blocks.symm hm
    have hul : u ∈ l := (h.listing hl hm u hlt).mp (by simpa using hu)
    obtain ⟨x, hx, -⟩ := hf.live_of_mem hl hul
    obtain ⟨σ, hσ⟩ := h.live hx
    rw [hy, Option.some.injEq] at hσ
    obtain ⟨args', rfl⟩ := Payload.call_of_rename hσ.symm
    exact ⟨f, b, l.toArray, u, args', hk, code_eq_ok.mpr hl, by simpa using hul, payload_of_live hx⟩
  · rw [Reading.withFunc_of_ne hpk] at hg
    exact ⟨g₀, b, code, u, args, hg, hcode, hu, hp⟩

lemma step (h : SpillProgress f ids vs g) (hf : Sound f) (hsp : Spillable g id b pre post)
    (hs : Spills g g' id b pre post us) (hid : id ∉ ids) (hlt : id < f.slots.size) :
    SpillProgress f (ids ++ [id]) (vs ++ [(g.slots.size : Int)]) g' := by
  have hslots := h.slots
  obtain ⟨slots, blocks, hrest⟩ := hs.rest
  have hlisting : ∀ {c m'}, g'.listing? c = some m' → ∃ m, g.listing? c = some m := by
    intro c m' hm'
    exact exists_listing hs.blocks.symm hm'
  refine
    { sound := hs.sound
      framed := hs.framed hsp
      wellFormed := hs.wellFormed hsp
      leads := fun c d => (hs.leads_iff hsp).trans (h.leads c d)
      entry := hs.entry_eq.trans h.entry
      params := by rw [hrest]; exact h.params
      name := by rw [hrest]; exact h.name
      isMain := by rw [hrest]; exact h.isMain
      slots := by rw [hs.slots]; omega
      blocks := hs.blocks.trans h.blocks
      live := ?_, listing := ?_, same := ?_, new := ?_, users := ?_, spilled := ?_, fresh := ?_
      nodup := ?_
      locals := by rw [hrest, ← List.append_assoc, ← h.locals]
      size := ?_, runs := ?_ }
  · intro j x hx
    obtain ⟨σ, hσ⟩ := h.live hx
    exact ⟨_, by rw [hs.live_old hσ, Payload.rename_rename]⟩
  · intro c l m' hl hm' j hj
    obtain ⟨m, hm⟩ := hlisting hm'
    rw [← h.listing hl hm j hj, hs.mem_listing hsp hm hm']
    refine ⟨?_, Or.inl⟩
    rintro (hj | ⟨w, -, hw, hj'⟩ | ⟨-, hj'⟩)
    · exact hj
    · have := (fillOf_bounds (n := g.slots.size) hw).1
      omega
    · omega
  · intro c l hc hl hout
    have hg := h.same hc hl fun i hi => hout i (by simp [hi])
    have hcb : c ≠ b := by
      rintro rfl
      obtain rfl : l = pre ++ id :: post := Option.some.inj (hg.symm.trans hsp.here)
      exact hout id (by simp) (by simp)
    rw [hs.listing_there hsp (h.reaches_iff.mpr hc) hcb, hg]
  · intro c m' j hm' hj hle
    obtain ⟨m, hm⟩ := hlisting hm'
    rcases (hs.mem_listing hsp hm hm').mp hj with hj | ⟨w, -, hw, rfl⟩ | ⟨-, rfl⟩
    · rcases h.new hm hj hle with hr | ⟨v, i, hx⟩
      · exact Or.inl (hs.reloads hsp hr)
      · exact Or.inr ⟨_, _, hs.live_old hx⟩
    · exact Or.inl ⟨g.slots.size, spillVariable, hs.live_fill hw, by rw [hs.vars, if_pos rfl], rfl⟩
    · exact Or.inr ⟨_, _, hs.live_store⟩
  · intro i hi hout
    rw [hs.users_eq (by omega) (by rintro rfl; simp at hout)]
    exact h.users i hi fun hmem => hout (by simp [hmem])
  · refine List.rel_append ?_ (.cons (hs.spilledIn_self hsp) .nil)
    have hne : ∀ i ∈ ids, i ≠ id := by
      rintro i hi rfl
      exact hid hi
    exact ((List.forall₂_and_left _ _).mpr ⟨hne, h.spilled⟩).imp fun i v hiv => hs.spilledIn hsp hiv.1 hiv.2
  · intro v hv
    rw [hs.slots]
    rcases List.mem_append.mp hv with hv | hv
    · have := h.fresh v hv
      omega
    · obtain rfl := List.mem_singleton.mp hv
      omega
  · rw [List.nodup_append]
    refine ⟨h.nodup, by simp, fun v hv w hw => ?_⟩
    rintro rfl
    have h1 := (h.fresh v hv).2
    rw [List.mem_singleton.mp hw] at h1
    omega
  · rw [hs.size, h.size, ← hs.ncard_users, h.users id hlt hid]
    simp only [List.length_append, List.length_cons, List.length_nil, List.map_append, List.map_cons,
      List.map_nil, List.sum_append, List.sum_cons, List.sum_nil]
    omega
  · intro r k hk hback j
    have hback' : ¬ Relation.TransGen (r.withFunc k g).program.Calls k k :=
      fun hcyc => hback (hcyc.lift (fun i => i) fun p q hpq => h.calls hf hk hpq)
    have hrun := (h.runs r k hk hback j).trans
      (hs.sameRuns hsp (Reading.withFunc_self hk) hback' j)
    rw [Reading.withFunc_withFunc] at hrun
    simpa using hrun

lemma placedUsers_iff (h : SpillProgress f ids vs g) (hi : i < f.slots.size) (hid : i ∉ ids) :
    g.PlacedUsers i ↔ f.PlacedUsers i := by
  have husers := h.users i hi hid
  constructor
  · intro hplaced u x hx hop
    obtain ⟨y, hy, hop'⟩ : u ∈ g.users i := husers ▸ (⟨x, hx, hop⟩ : u ∈ f.users i)
    obtain ⟨c, m, hm, hu⟩ := hplaced hy hop'
    obtain ⟨l, hl⟩ := exists_listing h.blocks.symm hm
    exact ⟨c, l, hl, (h.listing hl hm u (lt_size_of_live hx)).mp hu⟩
  · intro hplaced u y hy hop
    obtain ⟨x, hx, hop'⟩ : u ∈ f.users i := husers ▸ (⟨y, hy, hop⟩ : u ∈ g.users i)
    obtain ⟨c, l, hl, hu⟩ := hplaced hx hop'
    obtain ⟨m, hm⟩ := exists_listing h.blocks hl
    exact ⟨c, m, hm, (h.listing hl hm u (lt_size_of_live hx)).mpr hu⟩

end SpillProgress

/-- Function `g` comes from `f` by the spilling of `ids`, one after the other. -/
inductive SpillChain (f : Func) : List Id → Func → Prop where
  | refl : SpillChain f [] f
  | tail {ids : List Id} {g g' : Func} {id : Int} {b : BlockId} {pre post us : List Id} :
    SpillChain f ids g → Spillable g id b pre post → Spills g g' id b pre post us → id ∉ ids →
    id < f.slots.size → SpillChain f (ids ++ [id]) g'

lemma SpillChain.progress (h : SpillChain f ids g) (hf : Sound f) (hframed : Framed f)
    (hw : WellFormed f) : ∃ vs, SpillProgress f ids vs g := by
  induction h with
  | refl => exact ⟨[], .refl hf hframed hw⟩
  | tail _ hsp hs hid hlt ih =>
    obtain ⟨vs, hp⟩ := ih
    exact ⟨_, hp.step hf hsp hs hid hlt⟩

/-- Whether the instruction in a slot produces a value. -/
def producesAt (f : Func) (i : Id) : Bool := (f.live? i).any (·.produces)

section Walk

variable (hf : Sound f) (hframed : Framed f) (hw : WellFormed f)
include hf hframed hw

/-- One instruction of a block that is being spilled. It breaks if users of it are not placed. -/
lemma SpillChain.spillAt_cases (h : SpillChain f ids g) (hb : f.Reaches b)
    (hl : f.listing? b = some l) (hi : i ∈ l) (hid : i ∉ ids) {fills : BitSet} (n : Nat)
    (hfills : ∀ k < f.slots.size, fills.contains k = false) :
    ((f.producesAt i = true ∧ ¬ f.PlacedUsers i) ∧
        ∃ e, spillAt { func := g, fills := fills, count := n } i = .error e) ∨
      ∃ g' fills', spillAt { func := g, fills := fills, count := n } i =
          .ok { func := g', fills := fills', count := n + ([i].filter f.producesAt).length } ∧
        SpillChain f (ids ++ [i].filter f.producesAt) g' ∧
        ∀ k < f.slots.size, fills'.contains k = false := by
  obtain ⟨vs, hp⟩ := h.progress hf hframed hw
  obtain ⟨x, hx, hv⟩ := hf.live_of_mem hl hi
  obtain ⟨σ, hσ⟩ := hp.live hx
  have hslots := hp.slots
  obtain ⟨h0, hlt⟩ := at?_isSome.mp (at?_isSome_of_live hx)
  have hfresh : fills.contains i.toNat = false := hfills _ (by omega)
  have hvar : ∀ w, x.rename σ ≠ .var w := by
    rw [← Payload.asVar_eq_none, Payload.rename, asVar_withOperands, Payload.asVar_eq_none]
    exact hv
  have hprod : (x.rename σ).producesValue = .ok x.produces := by
    rw [Payload.producesValue_eq hvar, Payload.produces_rename]
  have hat : f.producesAt i = x.produces := by simp [producesAt, hx]
  have hneg : ¬ i < 0 := by omega
  unfold spillAt
  rw [if_neg hneg]
  simp only [hfresh, payload_of_live hσ, ok_bind, hprod, Bool.false_eq_true, if_false, pure_eq_ok]
  cases hpx : x.produces with
  | false =>
    refine Or.inr ⟨g, fills, ?_, ?_, hfills⟩
    · simp [hat, hpx]
    · simpa [hat, hpx] using h
  | true =>
    have hplaced := hp.placedUsers_iff hlt hid
    by_cases husers : f.PlacedUsers i
    · obtain ⟨m, hm⟩ := exists_listing hp.blocks hl
      obtain ⟨pre, post, rfl⟩ := List.append_of_mem ((hp.listing hl hm i hlt).mpr hi)
      have hsp : Spillable g i b pre post :=
        ⟨hp.sound, hp.framed, hp.wellFormed, hplaced.mpr husers, hp.reaches_iff.mpr hb, hm,
          ⟨_, hσ, by rw [Payload.produces_rename, hpx]⟩⟩
      obtain ⟨g', fills', us, hspill, hs, hk⟩ := hsp.spill_ok fills
      refine Or.inr ⟨g', fills', ?_, ?_, ?_⟩
      · simp [hspill, hat, hpx]
      · simpa [hat, hpx] using h.tail hsp hs hid hlt
      · intro k hk'
        rw [hk k (by omega), hfills k hk']
    · refine Or.inl ⟨⟨hat.trans hpx, husers⟩, ?_⟩
      cases hspill : g.spill fills i with
      | error e => exact ⟨e, by simp⟩
      | ok r =>
        refine absurd ?_ husers
        exact hplaced.mp (hp.sound.placed_of_spill hspill)

lemma SpillChain.spillCode_cases {rest : List Id} (h : SpillChain f ids g)
    (hb : f.Reaches b) (hl : f.listing? b = some l) (hrest : ∀ i ∈ rest, i ∈ l)
    (hnd : (ids ++ rest).Nodup) {fills : BitSet} (n : Nat)
    (hfills : ∀ k < f.slots.size, fills.contains k = false) :
    ((∃ i ∈ rest, f.producesAt i = true ∧ ¬ f.PlacedUsers i) ∧
        ∃ e, rest.foldlM spillAt { func := g, fills := fills, count := n } = .error e) ∨
      ∃ g' fills', rest.foldlM spillAt { func := g, fills := fills, count := n } =
          .ok { func := g', fills := fills', count := n + (rest.filter f.producesAt).length } ∧
        SpillChain f (ids ++ rest.filter f.producesAt) g' ∧
        ∀ k < f.slots.size, fills'.contains k = false := by
  induction rest generalizing ids g fills n with
  | nil => exact Or.inr ⟨g, fills, rfl, by simpa using h, hfills⟩
  | cons i rest ih =>
    have hid : i ∉ ids := fun hmem => (List.nodup_append.mp hnd).2.2 i hmem i (by simp) rfl
    rw [List.foldlM_cons]
    rcases h.spillAt_cases hf hframed hw hb hl (hrest i (by simp)) hid n hfills with
      ⟨hbad, e, h₁⟩ | ⟨g₁, fills₁, h₁, hp₁, hf₁⟩
    · exact Or.inl ⟨⟨i, by simp, hbad⟩, e, by rw [h₁]; rfl⟩
    · have hnd' : (ids ++ [i].filter f.producesAt ++ rest).Nodup := by
        refine hnd.sublist ?_
        rw [List.append_assoc]
        exact (List.Sublist.refl ids).append
          ((List.filter_sublist (l := [i])).append (List.Sublist.refl rest))
      have hsplit : (i :: rest).filter f.producesAt =
          [i].filter f.producesAt ++ rest.filter f.producesAt := by
        rw [← List.filter_append]
        rfl
      rw [h₁, ok_bind, hsplit, List.length_append, ← Nat.add_assoc, ← List.append_assoc]
      refine (ih hp₁ (fun j hj => hrest j (by simp [hj])) hnd'
        (n + ([i].filter f.producesAt).length) hf₁).imp_left ?_
      rintro ⟨⟨j, hj, hbad⟩, he⟩
      exact ⟨⟨j, by simp [hj], hbad⟩, he⟩

end Walk

/-- What holds when some blocks have been visited. -/
structure SpilledBlocks (f : Func) (visited : List BlockId) (st : Spilling) (ids : List Id) : Prop where
  chain : SpillChain f ids st.func
  count : st.count = ids.length
  nodup : ids.Nodup
  fills : ∀ k < f.slots.size, st.fills.contains k = false
  mem : ∀ i, i ∈ ids ↔ ∃ b ∈ visited, ∃ l, f.listing? b = some l ∧ i ∈ l ∧ f.producesAt i = true
  order : ∀ b ∈ visited, ∀ l, f.listing? b = some l → (l.filter f.producesAt).Sublist ids

section Walk

variable (hf : Sound f) (hframed : Framed f) (hw : WellFormed f)

lemma producer_of_producesAt (hb : f.Reaches b) (hl : f.listing? b = some l) (hi : i ∈ l)
    (hp : f.producesAt i = true) : f.Producer i := by
  obtain ⟨x, hx, hxp⟩ : ∃ x, f.live? i = some x ∧ x.produces = true := by
    simpa [producesAt, Option.any_eq_true] using hp
  exact ⟨b, l, x, hb, hl, hi, hx, hxp⟩

include hf hframed hw

lemma SpilledBlocks.visit {visited : List BlockId} {st : Spilling}
    (h : SpilledBlocks f visited st ids) (hb : f.Reaches b) (hnew : b ∉ visited) :
    ((∃ i, f.Producer i ∧ ¬ f.PlacedUsers i) ∧ ∃ e, spillBlock st b = .error e) ∨
      ∃ st' succs, spillBlock st b = .ok st' ∧ (∃ ids', SpilledBlocks f (b :: visited) st' ids') ∧
        st'.func.successors b = .ok succs ∧ ∀ c, c ∈ succs ↔ f.Leads b c := by
  obtain ⟨g, fills, n⟩ := st
  obtain ⟨l, hl, -⟩ := hw.closes hb
  obtain ⟨vs, hp⟩ := h.chain.progress hf hframed hw
  have hout : ∀ i ∈ ids, i ∉ l := by
    intro i hi hil
    obtain ⟨c, hc, m, hm, him, -⟩ := (h.mem i).mp hi
    exact hnew (hf.block_unique hl hil hm him ▸ hc)
  have hsame : g.listing? b = some l := hp.same hb hl hout
  have hblock : spillBlock { func := g, fills := fills, count := n } b =
      l.foldlM spillAt { func := g, fills := fills, count := n } := by
    unfold spillBlock
    rw [show g.code b = .ok l.toArray from code_eq_ok.mpr hsame, ok_bind]
  rw [hblock]
  refine (h.chain.spillCode_cases hf hframed hw hb hl (fun i hi => hi) (List.nodup_append.mpr
    ⟨h.nodup, hf.nodup hl, fun i hi j hj hij => hout i hi (hij ▸ hj)⟩) n h.fills).imp ?_ ?_
  · rintro ⟨⟨i, hi, hpi, hbad⟩, he⟩
    exact ⟨⟨i, producer_of_producesAt hb hl hi hpi, hbad⟩, he⟩
  rintro ⟨g', fills', hcode, hc', hfills'⟩
  obtain ⟨vs', hp'⟩ := hc'.progress hf hframed hw
  obtain ⟨m, hm⟩ := exists_listing hp'.blocks hl
  obtain ⟨succs, hsuccs, hleads⟩ := hp'.sound.successors hm
  refine ⟨_, succs, hcode, ⟨_, hc', ?_, ?_, hfills', ?_, ?_⟩, hsuccs, ?_⟩
  · have hcount : n = ids.length := h.count
    simp [hcount]
  · rw [List.nodup_append]
    refine ⟨h.nodup, (hf.nodup hl).filter _, fun i hi j hj hij => ?_⟩
    exact hout i hi (hij ▸ List.mem_of_mem_filter hj)
  · intro i
    rw [List.mem_append, h.mem, List.mem_filter]
    constructor
    · rintro (⟨c, hc, hrest⟩ | ⟨hil, hpi⟩)
      · exact ⟨c, by simp [hc], hrest⟩
      · exact ⟨b, by simp, l, hl, hil, hpi⟩
    · rintro ⟨c, hc, m', hm', him, hpi⟩
      rcases List.mem_cons.mp hc with rfl | hc
      · rw [hl, Option.some.injEq] at hm'
        exact Or.inr ⟨hm' ▸ him, hpi⟩
      · exact Or.inl ⟨c, hc, m', hm', him, hpi⟩
  · intro c hc m' hm'
    rcases List.mem_cons.mp hc with rfl | hc
    · rw [hl, Option.some.injEq] at hm'
      rw [← hm']
      exact List.sublist_append_right ids _
    · exact (h.order c hc m' hm').trans (List.sublist_append_left ids _)
  · intro c
    rw [hleads, hp'.leads]

/-- Function `f'` is `f` with all the values that control comes to spilled. -/
structure SpilledAll (f : Func) (ids : List Id) (f' : Func) : Prop where
  chain : SpillChain f ids f'
  nodup : ids.Nodup
  mem : ∀ i, i ∈ ids ↔ f.Producer i
  order : ∀ b l, f.Reaches b → f.listing? b = some l → (l.filter f.producesAt).Sublist ids

/-- All blocks that control comes to are spilled, or users of a value are not placed. -/
theorem spillAll_cases :
    ((∃ i, f.Producer i ∧ ¬ f.PlacedUsers i) ∧ ∃ e, f.spillAll = .error e) ∨
      ∃ ids f', f.spillAll = .ok (ids.length, f') ∧ SpilledAll f ids f' := by
  have hwalk := walkFrom_cases (A := ∃ i, f.Producer i ∧ ¬ f.PlacedUsers i) (n := f.blocks.size)
    (fun (st : Spilling) b => st.func.successors b) spillBlock (E := f.Leads) (P := f.Reaches)
    (I := fun visited st => ∃ ids, SpilledBlocks f visited st ids)
    (fun b hb => by
      obtain ⟨l, hl, -⟩ := hw.closes hb
      exact bounds_of_listing? hl)
    (fun b c hb hc => hb.tail hc)
    (fun visited s b hb hnew ⟨ids, hI⟩ => hI.visit hf hframed hw hb hnew)
    [] { func := f } [f.entry]
    ⟨[], .refl, rfl, List.nodup_nil, fun _ _ => rfl, by simp, by simp⟩
    (by simp [Reaches, Relation.ReflTransGen.refl]) (by simp)
  refine hwalk.imp ?_ ?_
  · rintro ⟨hbad, e, he⟩
    refine ⟨hbad, e, ?_⟩
    unfold spillAll walk
    rw [he]
    rfl
  rintro ⟨st, visited, hok, ⟨ids, h⟩, -, hentry, hclosed⟩
  have hvisited : ∀ b, b ∈ visited ↔ f.Reaches b := by
    intro b
    exact ⟨fun hb => (hclosed b hb).1,
      fun hb => hb.mem (hentry _ (by simp)) fun c hc => (hclosed c hc).2⟩
  refine ⟨ids, st.func, ?_, h.chain, h.nodup, fun i => ?_,
    fun b l hb hl => h.order b ((hvisited b).mpr hb) l hl⟩
  · unfold spillAll walk
    rw [hok, ← h.count]
    rfl
  · rw [h.mem]
    constructor
    · rintro ⟨b, hb, l, hl, hi, hpi⟩
      exact producer_of_producesAt ((hvisited b).mp hb) hl hi hpi
    · rintro ⟨b, l, x, hb, hl, hi, hx, hxp⟩
      exact ⟨b, (hvisited b).mpr hb, l, hl, hi, by simp [producesAt, hx, hxp]⟩

end Walk

open Check

lemma SpilledIn.refs (h : SpilledIn f i v) (hf : Sound f) (hne : v ≠ i) :
    ∃ st, f.refs i = .ok [st] ∧ f.live? st = some (.store v i) ∧
      ∀ u x, f.live? u = some x → v ∈ x.operands → u = st ∨ x = .load v := by
  obtain ⟨-, st, hst, husers, hloads⟩ := h
  refine ⟨st, ?_, hst, hloads⟩
  obtain ⟨s, hs⟩ := Option.isSome_iff_exists.mp
    (hf.operands hst i (by simp [Payload.operands]))
  have hone : s.refs.count st = 1 := by
    rw [hf.refs hs, uses_of_live hst]
    simp [Payload.operands, hne]
  have hall : ∀ u ∈ s.refs, u = st := by
    intro u hu
    obtain ⟨x, hx, hop⟩ := (hf.mem_refs_iff hs).mp hu
    exact husers u x hx hop
  have hrep := List.eq_replicate_of_mem hall
  rw [hrep, List.count_replicate_self] at hone
  rw [refs_of_at? hs, hrep, hone]
  rfl

lemma isReload_eq (hf : Sound f) {x : Payload} (hx : f.live? i = some x) :
    ∃ r, f.isReload i = .ok r ∧ (r = true ↔ Reloads f i) := by
  unfold isReload
  rw [payload_of_live hx, ok_bind]
  cases x with
  | load src =>
    simp only [var?_eq (hf.operands hx src (by simp [Payload.operands])), ok_bind, pure_eq_ok]
    refine ⟨_, rfl, ?_⟩
    unfold Reloads
    rw [Option.any_eq_true, hx]
    simp
  | _ =>
    refine ⟨false, rfl, ?_⟩
    unfold Reloads
    rw [hx]
    simp

lemma checkSpillUser_passes {st : Id} {x : Payload} (hx : f.live? u = some x)
    (h : u = st ∧ (∃ d s, x = .store d s) ∨ x = .load v) : Passes (f.checkSpillUser i v st u) () := by
  unfold checkSpillUser
  rw [payload_of_live hx]
  rcases h with ⟨rfl, d, s, rfl⟩ | rfl
  · simp [Passes]
  · simp [Passes]

lemma checkSpilledAt_passes (hf : Sound f) {x : Payload} (hx : f.live? i = some x)
    (hvar : ∀ v, x ≠ .var v) (h : x.produces = true → Reloads f i ∨ ∃ v, SpilledIn f i v) :
    Passes (f.checkSpilledAt i) () := by
  obtain ⟨r, hr, hreload⟩ := isReload_eq hf hx
  unfold checkSpilledAt
  refine passes_bind.mpr ⟨x, passes_lift.mpr (payload_of_live hx), ?_⟩
  refine passes_bind.mpr ⟨x.produces, passes_lift.mpr (Payload.producesValue_eq hvar), ?_⟩
  cases hp : x.produces with
  | false => simp
  | true =>
    simp only [Bool.not_true, Bool.false_eq_true, if_false]
    refine passes_bind.mpr ⟨r, passes_lift.mpr hr, ?_⟩
    rcases h hp with hre | ⟨v, hsp⟩
    · rw [if_pos (hreload.mpr hre)]
      exact passes_pure.mpr rfl
    · cases hrb : r with
      | true => simp
      | false =>
        have hne : v ≠ i := by
          rintro rfl
          have := hsp.1
          rw [varOf?_of_live hx, Payload.asVar_eq_none.mpr hvar] at this
          cases this
        obtain ⟨st, hrefs, hst, hloads⟩ := hsp.refs hf hne
        have hat : (f.at? v).isSome := at?_of_varOf? (by rw [hsp.1]; rfl)
        obtain ⟨s, hs⟩ := Option.isSome_iff_exists.mp hat
        simp only [Bool.false_eq_true, if_false]
        refine passes_bind.mpr ⟨[st], passes_lift.mpr hrefs, ?_⟩
        refine passes_bind.mpr ⟨.store v i, passes_lift.mpr (payload_of_live hst), ?_⟩
        simp only [ne_eq, not_true_eq_false, if_false]
        refine passes_bind.mpr ⟨some spillVariable, passes_lift.mpr (by rw [var?_eq hat, hsp.1]), ?_⟩
        simp only [Option.isNone_some, Bool.false_eq_true, if_false]
        refine passes_bind.mpr ⟨s.refs, passes_lift.mpr (refs_of_at? hs), ?_⟩
        refine passes_forM.mpr fun u hu => ?_
        obtain ⟨y, hy, hop⟩ := (hf.mem_refs_iff hs).mp hu
        refine checkSpillUser_passes hy ?_
        rcases hloads u y hy hop with rfl | rfl
        · rw [hst, Option.some.injEq] at hy
          exact Or.inl ⟨rfl, v, i, hy.symm⟩
        · exact Or.inr rfl

lemma checkSpilled_visit (hf : Sound f) (hw : WellFormed f)
    (h : ∀ i, f.Producer i → Reloads f i ∨ ∃ v, SpilledIn f i v) {s : Except SpillDefect Unit}
    (hb : f.Reaches b) (hs : s = .ok ()) :
    ∃ s' succs, (do
      let code ← f.code b
      match s with
      | .error e => return .error e
      | .ok () => (code.toList.forM f.checkSpilledAt).run : Except Fault _) = .ok s' ∧ s' = .ok () ∧
      f.successors b = .ok succs ∧ ∀ c, c ∈ succs ↔ f.Leads b c := by
  subst hs
  obtain ⟨l, hl, -⟩ := hw.closes hb
  obtain ⟨succs, hsuccs, hleads⟩ := hf.successors hl
  refine ⟨.ok (), succs, ?_, rfl, hsuccs, hleads⟩
  rw [show f.code b = .ok l.toArray from code_eq_ok.mpr hl, ok_bind]
  have hall : Passes (l.forM f.checkSpilledAt) () := by
    refine passes_forM.mpr fun i hi => ?_
    obtain ⟨x, hx, hvar⟩ := hf.live_of_mem hl hi
    exact checkSpilledAt_passes hf hx hvar fun hp => h i ⟨b, l, x, hb, hl, hi, hx, hp⟩
  exact hall

lemma checkSpilled_ok (hf : Sound f) (hw : WellFormed f)
    (h : ∀ i, f.Producer i → Reloads f i ∨ ∃ v, SpilledIn f i v) :
    f.checkSpilled = .ok (.ok ()) := by
  obtain ⟨s, visited, hwalk, rfl, -⟩ :=
    walkFrom_ok (fun (_ : Except SpillDefect Unit) b => f.successors b) _
      (E := f.Leads) (P := f.Reaches) (I := fun _ s => s = .ok ())
      (fun b hb => by
        obtain ⟨l, hl, -⟩ := hw.closes hb
        exact bounds_of_listing? hl)
      (fun b c hb hc => Relation.ReflTransGen.tail hb hc)
      (fun _ s b hb _ hs => checkSpilled_visit hf hw h hb hs)
      [] (.ok ()) [f.entry] rfl (by simp [Reaches, Relation.ReflTransGen.refl]) (by simp)
  exact congrArg (Prod.fst <$> ·) hwalk

lemma exists_of_forall₂ {α β : Type} {R : α → β → Prop} {l : List α} {m : List β}
    (h : List.Forall₂ R l m) {a : α} (ha : a ∈ l) : ∃ b ∈ m, R a b := by
  induction h with
  | nil => simp at ha
  | cons hab _ ih =>
    rcases List.mem_cons.mp ha with rfl | ha
    · exact ⟨_, by simp, hab⟩
    · obtain ⟨b, hb, hr⟩ := ih ha
      exact ⟨b, by simp [hb], hr⟩

lemma SpillProgress.checkSpilled (h : SpillProgress f ids vs g) (hf : Sound f)
    (hids : ∀ i, f.Producer i → i ∈ ids) : g.checkSpilled = .ok (.ok ()) := by
  refine checkSpilled_ok h.sound h.wellFormed ?_
  rintro i ⟨b, m, y, hb, hm, hi, hy, hp⟩
  rw [h.reaches_iff] at hb
  by_cases hlt : @LT.lt Int _ i f.slots.size
  · obtain ⟨l, hl⟩ := exists_listing h.blocks.symm hm
    have hil := (h.listing hl hm i hlt).mp hi
    obtain ⟨x, hx, -⟩ := hf.live_of_mem hl hil
    obtain ⟨σ, hσ⟩ := h.live hx
    rw [hy, Option.some.injEq] at hσ
    rw [hσ, Payload.produces_rename] at hp
    obtain ⟨v, -, hv⟩ := exists_of_forall₂ h.spilled (hids i ⟨b, l, x, hb, hl, hil, hx, hp⟩)
    exact Or.inr ⟨v, hv⟩
  · left
    rcases h.new hm hi (by omega) with hre | ⟨v, d, hx⟩
    · exact hre
    · rw [hy, Option.some.injEq] at hx
      rw [hx] at hp
      cases hp

lemma not_calls {p : Program} {k j : Nat} (hk : p.funcs[k]? = some f)
    (h : ∀ s ∈ f.slots.toList, s.payload.isCall = false) : ¬ p.Calls k j := by
  intro hcalls
  obtain ⟨s, hs, args, hcall⟩ := hcalls.slot hk
  have := h s hs
  rw [hcall] at this
  cases this

lemma spillAll_single {n : Nat} (hentry : f.entry = 0) (hsize : 0 < f.blocks.size)
    (hblock : (spillBlock { func := f } 0).map (fun st => (st.count, st.func)) = .ok (n, f'))
    (hnext : f'.successors 0 = .ok []) : f.spillAll = .ok (n, f') := by
  cases hst : spillBlock { func := f } 0 with
  | error e =>
    rw [hst] at hblock
    cases hblock
  | ok st =>
    rw [hst] at hblock
    obtain ⟨rfl, rfl⟩ := Prod.mk.inj (Except.ok.inj hblock)
    have hwalk : walkFrom f.blocks.size (fun (st : Spilling) b => st.func.successors b) spillBlock []
        { func := f } [0] = .ok (st, [0]) := walkFrom_single hsize hst hnext
    rw [spillAll, walk, hentry, hwalk]
    rfl

lemma Sound.usersPlaced (hf : Sound f)
    (h : ∀ s ∈ f.slots.toList, s.payload.operands ≠ [] → s.block ≠ noBlock) : UsersPlaced f := by
  intro b l i u x _ _ _ hx hop
  obtain ⟨s, hs, -, rfl⟩ := live?_eq_some.mp hx
  have hmem : s ∈ f.slots.toList := by
    rw [at?_eq] at hs
    grind
  obtain ⟨m, hm, hu⟩ := hf.placed hs (h s hmem (List.ne_nil_of_mem hop))
  exact ⟨s.block, m, hm, hu⟩

end Func

open Func Reading

/-- Spilling a function that was made by edits and passes its checks does not break, if the users of
what control comes to are placed. Its values are then spilled into new variables, one each, at the
end of the list of locals; the size grows by the number of values and of their distinct users; the
result passes both checks. In every program that has the function and no call that leads back to it,
and from every world in which nothing points to the new variables, runs then take the same blocks,
with the same reads, writes, calls and stores, and end the same way. -/
theorem spillAll_keeps_meaning {f : Func} (hmade : Made f) (hverify : f.verify = .ok (.ok ()))
    (hplaced : UsersPlaced f) :
    ∃ ids vs f', f.spillAll = .ok (ids.length, f') ∧ f'.verify = .ok (.ok ()) ∧
      f'.checkSpilled = .ok (.ok ()) ∧ ids.Nodup ∧ (∀ i, i ∈ ids ↔ f.Producer i) ∧
      f'.size = f.size + ids.length + (ids.map fun i => (f.users i).ncard).sum ∧
      f'.locals = f.locals ++ vs ∧ List.Forall₂ (SpilledIn f') ids vs ∧ vs.Nodup ∧
      (∀ v ∈ vs, f.at? v = none) ∧
      ∀ (r : Reading) (k : Nat), r.program.funcs[k]? = some f →
        ¬ Relation.TransGen r.program.Calls k k →
        ∀ j, SameRuns (vs.map fun v => ⟨k, v.toNat⟩) r (r.withFunc k f') j := by
  obtain ⟨hf, hframed⟩ := hmade.sound
  have hw := hf.verify_iff.mp hverify
  have hgood : ¬ ∃ i, f.Producer i ∧ ¬ f.PlacedUsers i := by
    rintro ⟨i, ⟨b, l, _, hb, hl, hi, _⟩, hbad⟩
    exact hbad (hplaced hb hl hi)
  obtain ⟨ids, f', hspill, hchain, hnd, hids, -⟩ :=
    (spillAll_cases hf hframed hw).resolve_left fun h => hgood h.1
  obtain ⟨vs, hp⟩ := hchain.progress hf hframed hw
  refine ⟨ids, vs, f', hspill, hp.sound.verify_iff.mpr hp.wellFormed,
    hp.checkSpilled hf fun i hi => (hids i).mpr hi, hnd, hids, hp.size, hp.locals, hp.spilled,
    hp.nodup, fun v hv => ?_, hp.runs⟩
  have hfresh := (hp.fresh v hv).1
  have : ¬ (f.at? v).isSome := by
    rw [at?_isSome]
    omega
  simpa using this

/-- A function that reads a number, doubles it by adding it to itself and writes it. -/
def doubling : Func :=
  { name := "main"
    isMain := true
    entry := 0
    blocks := #[#[0, 1, 2, 3]]
    slots := #[
      { payload := .read, block := 0, refs := [1, 1] },
      { payload := .alu .add 0 0, block := 0, refs := [2] },
      { payload := .write 1, block := 0 },
      { payload := .stop, block := 0 }] }

lemma doubling_made : Made doubling :=
  Made.straight [] [.read, .alu .add 0 0, .write 1, .stop] (by decide)

lemma doubling_verify : doubling.verify = .ok (.ok ()) :=
  verify_single rfl (by decide) (by decide) rfl

/-- The program of the function alone. -/
def doublingProgram : Reading := { program := { funcs := #[doubling] }, division := Word.exact }

lemma doublingProgram_calls : ¬ Relation.TransGen doublingProgram.program.Calls 0 0 := by
  intro hcyc
  obtain ⟨j, hcall, -⟩ := Relation.TransGen.head'_iff.mp hcyc
  exact not_calls (f := doubling) rfl (by decide) hcall

/-- The function after its two values were spilled. -/
def doublingSpilled : Func :=
  { doubling with
    locals := [4, 7]
    blocks := #[#[0, 6, 5, 1, 9, 8, 2, 3]]
    slots := #[
      { payload := .read, block := 0, refs := [6] },
      { payload := .alu .add 5 5, block := 0, refs := [9] },
      { payload := .write 8, block := 0 },
      { payload := .stop, block := 0 },
      { payload := .var spillVariable, refs := [5, 6] },
      { payload := .load 4, block := 0, refs := [1, 1] },
      { payload := .store 4 0, block := 0 },
      { payload := .var spillVariable, refs := [8, 9] },
      { payload := .load 7, block := 0, refs := [2] },
      { payload := .store 7 1, block := 0 }] }

lemma doubling_spillAll : doubling.spillAll = .ok (2, doublingSpilled) :=
  spillAll_single rfl (by decide) (by decide +kernel) (by decide +kernel)

/-- A value that is used twice by one instruction is loaded once for it. -/
theorem doubling_spilled :
    Made doubling ∧ doubling.spillAll = .ok (2, doublingSpilled) ∧
      doublingSpilled.verify = .ok (.ok ()) ∧ doublingSpilled.checkSpilled = .ok (.ok ()) ∧
      SameRuns [⟨0, 4⟩, ⟨0, 7⟩] doublingProgram (doublingProgram.withFunc 0 doublingSpilled) 0 := by
  obtain ⟨hf, -⟩ := doubling_made.sound
  obtain ⟨ids, vs, f', hspill, hverify, hcheck, -, -, -, hlocals, -, -, -, hruns⟩ :=
    spillAll_keeps_meaning doubling_made doubling_verify (hf.usersPlaced (by decide))
  obtain ⟨-, rfl⟩ : ids.length = 2 ∧ f' = doublingSpilled := by
    simpa using hspill.symm.trans doubling_spillAll
  obtain rfl : vs = [4, 7] := by simpa [doubling, doublingSpilled] using hlocals.symm
  exact ⟨doubling_made, doubling_spillAll, hverify, hcheck,
    hruns doublingProgram 0 rfl doublingProgram_calls 0⟩

end Accumulator.Flow
