import Mathlib
import Accumulator.Proofs.Complementing
import Accumulator.Proofs.SpillMeaning
import Accumulator.Proofs.TreeRuns

/-!
# Code that works on a stack

The code of a tree computes values as on a stack: each instruction uses the last values that are
left, and no value is left at the end of a block. So every value that is computed on the way has
just one user.
-/

namespace Accumulator

open Accumulator.Flow (Id BlockId Payload)

namespace Flow.Func

variable {f : Func} {b : BlockId} {l s t : List Id} {i u : Id} {x : Payload}

/-- What an instruction leaves of its own. -/
def own (x : Payload) (i : Id) : List Id := if x.produces then [i] else []

/-- Code that leaves the values `s`, oldest first. Each instruction takes the last ones that are
left. -/
inductive Stacks (f : Func) : List Id → List Id → Prop where
  | nil : Stacks f [] []
  | step {l s : List Id} {i : Id} {x : Payload} : Stacks f l (s ++ f.needs x) → f.live? i = some x →
    Stacks f (l ++ [i]) (s ++ own x i)

lemma mem_own : i ∈ own x u ↔ i = u ∧ x.produces = true := by
  unfold own
  cases x.produces <;> simp

lemma Stacks.value (h : Stacks f l t) (hx : f.live? i = some x) (ht : t = s ++ f.needs x)
    (hp : x.produces = true) : Stacks f (l ++ [i]) (s ++ [i]) := by
  have hstep := Stacks.step (ht ▸ h) hx
  rwa [own, if_pos hp] at hstep

lemma Stacks.effect (h : Stacks f l t) (hx : f.live? i = some x) (ht : t = s ++ f.needs x)
    (hp : x.produces = false) : Stacks f (l ++ [i]) s := by
  have hstep := Stacks.step (ht ▸ h) hx
  rwa [own, hp, if_neg Bool.false_ne_true, List.append_nil] at hstep

/-- An instruction takes a value. -/
def Takes (f : Func) (u i : Id) : Prop := ∃ x, f.live? u = some x ∧ i ∈ f.needs x

/-- The values that are left have not been taken, and the others have been taken once. -/
structure TakenOnce (f : Func) (l s : List Id) : Prop where
  nodup : s.Nodup
  sub : ∀ i ∈ s, i ∈ l
  takes : ∀ u ∈ l, ∀ i, f.Takes u i → i ∈ l
  left : ∀ i ∈ s, ∀ u ∈ l, ¬ f.Takes u i
  once : ∀ i ∈ l, i ∉ s → (∃ x, f.live? i = some x ∧ x.produces = true) → ∃! u, u ∈ l ∧ f.Takes u i

lemma takes_iff (hx : f.live? u = some x) : f.Takes u i ↔ i ∈ f.needs x := by
  constructor
  · rintro ⟨y, hy, hi⟩
    obtain rfl : x = y := Option.some.inj (hx.symm.trans hy)
    exact hi
  · exact fun hi => ⟨x, hx, hi⟩

lemma TakenOnce.step (h : TakenOnce f l (s ++ f.needs x)) (hu : u ∉ l) (hx : f.live? u = some x) :
    TakenOnce f (l ++ [u]) (s ++ own x u) := by
  obtain ⟨hs, -, hdisjoint⟩ := List.nodup_append.mp h.nodup
  have hsub : ∀ i ∈ s, i ∈ l := fun i hi => h.sub i (by simp [hi])
  have hneeds : ∀ i ∈ f.needs x, i ∈ l := fun i hi => h.sub i (by simp [hi])
  refine ⟨?_, fun i hi => ?_, fun v hv i hi => ?_, fun i hi v hv hi' => ?_, fun i hi hns hprod => ?_⟩
  · refine List.nodup_append.mpr ⟨hs, ?_, fun i hi j hj hij => ?_⟩
    · unfold own
      split <;> simp
    · obtain ⟨rfl, -⟩ := mem_own.mp hj
      exact hu (hij ▸ hsub i hi)
  · rcases List.mem_append.mp hi with hi | hi
    · exact List.mem_append_left _ (hsub i hi)
    · simp [(mem_own.mp hi).1]
  · rcases List.mem_append.mp hv with hv | hv
    · exact List.mem_append_left _ (h.takes v hv i hi)
    · rw [List.mem_singleton.mp hv, takes_iff hx] at hi
      exact List.mem_append_left _ (hneeds i hi)
  · have htaken : i ∈ l ∧ i ∉ s := by
      rcases List.mem_append.mp hv with hv | hv
      · exact ⟨h.takes v hv i hi', fun his => h.left i (by simp [his]) v hv hi'⟩
      · rw [List.mem_singleton.mp hv, takes_iff hx] at hi'
        exact ⟨hneeds i hi', fun his => hdisjoint i his i hi' rfl⟩
    rcases List.mem_append.mp hi with hi | hi
    · exact htaken.2 hi
    · obtain ⟨rfl, -⟩ := mem_own.mp hi
      exact hu htaken.1
  · rw [List.mem_append, not_or] at hns
    have hil : i ∈ l := by
      rcases List.mem_append.mp hi with hi | hi
      · exact hi
      · obtain rfl := List.mem_singleton.mp hi
        obtain ⟨y, hy, hp⟩ := hprod
        obtain rfl : x = y := Option.some.inj (hx.symm.trans hy)
        exact absurd (mem_own.mpr ⟨rfl, hp⟩) hns.2
    by_cases hmem : i ∈ f.needs x
    · refine ⟨u, ⟨by simp, (takes_iff hx).mpr hmem⟩, fun v ⟨hv, htakes⟩ => ?_⟩
      rcases List.mem_append.mp hv with hv | hv
      · exact absurd htakes (h.left i (by simp [hmem]) v hv)
      · exact List.mem_singleton.mp hv
    · obtain ⟨v, ⟨hv, htakes⟩, hunique⟩ := h.once i hil (by simp [hns.1, hmem]) hprod
      refine ⟨v, ⟨by simp [hv], htakes⟩, fun w ⟨hw, hwtakes⟩ => ?_⟩
      rcases List.mem_append.mp hw with hw | hw
      · exact hunique w ⟨hw, hwtakes⟩
      · rw [List.mem_singleton.mp hw, takes_iff hx] at hwtakes
        exact absurd hwtakes hmem

lemma Stacks.takenOnce (h : Stacks f l s) (hl : l.Nodup) : TakenOnce f l s := by
  induction h with
  | nil => exact ⟨List.nodup_nil, by simp, by simp, by simp, by simp⟩
  | step _ hx ih =>
    obtain ⟨hl, -, hdisjoint⟩ := List.nodup_append.mp hl
    exact (ih hl).step (fun hu => hdisjoint _ hu _ (by simp) rfl) hx

/-- A block at whose end no value is left. -/
def Clears (f : Func) (b : BlockId) : Prop := ∃ l, f.listing? b = some l ∧ f.Stacks l []

lemma Orderly.uses_value {arity : Nat → Nat → Prop} (hf : Orderly arity ∅ f)
    (hx : f.live? i = some x) (hp : x.produces = true) (hu : f.Takes u i) : f.uses u i = 1 := by
  obtain ⟨y, hy, hmem⟩ := hu
  have hoperand := f.mem_operands_iff.mpr (Or.inl hmem)
  obtain ⟨b, l, hl, hul⟩ := hf.placed hy (asVar_of_operand hoperand)
  obtain ⟨pre, post, rfl⟩ := List.append_of_mem hul
  have hnodup : (f.needs y).Nodup :=
    ((hf.sound.nodup hl).sublist (List.sublist_append_left _ _)).sublist
      ((hf.ready hl hy).trans (f.avail_sublist pre))
  have hnamed : i ∉ f.named y := by
    intro hn
    have hvar := hf.framed i (hf.named hy i hn)
    rw [varOf?_of_live hx, Payload.asVar_of_produces hp] at hvar
    cases hvar
  rw [uses_of_live hy, count_operands f, List.count_eq_one_of_mem hnodup hmem,
    List.count_eq_zero_of_not_mem hnamed]

lemma Orderly.uses_of_clears {arity : Nat → Nat → Prop} (hf : Orderly arity ∅ f) (hb : f.Clears b)
    (hl : f.listing? b = some l) (hi : i ∈ l) (hx : f.live? i = some x) (hp : x.produces = true) :
    ∃ u, ∀ v, f.uses v i = if v = u then 1 else 0 := by
  obtain ⟨m, hm, hstacks⟩ := hb
  obtain rfl : l = m := Option.some.inj (hl.symm.trans hm)
  obtain ⟨u, ⟨hu, htakes⟩, hunique⟩ :=
    (hstacks.takenOnce (hf.sound.nodup hl)).once i hi (by simp) ⟨x, hx, hp⟩
  refine ⟨u, fun v => ?_⟩
  split
  · next hvu => exact hvu ▸ hf.uses_value hx hp htakes
  · next hne =>
    cases hy : f.live? v with
    | none => exact uses_of_none hy
    | some y =>
      rw [uses_of_live hy, List.count_eq_zero]
      refine fun hmem => hne (hunique v ?_)
      obtain ⟨c, m, hm, hv⟩ := hf.placed hy (asVar_of_operand hmem)
      obtain ⟨pre, post, rfl⟩ := List.append_of_mem hv
      rcases hf.operand hm hy hmem with ⟨-, hvar⟩ | ⟨hneeds, hpre, -⟩
      · rw [varOf?_of_live hx, Payload.asVar_of_produces hp] at hvar
        cases hvar
      · obtain rfl := hf.sound.block_unique hl hi hm (by simp [hpre])
        obtain rfl := Option.some.inj (hl.symm.trans hm)
        exact ⟨hv, y, hy, hneeds⟩

lemma targets_of_leads {c : BlockId} (hl : f.listing? b = some (l ++ [i])) (hx : f.live? i = some x)
    (h : f.Leads b c) : c ∈ x.targets := by
  obtain ⟨m, t, y, hm, ht, hy, hc⟩ := h
  obtain rfl := Option.some.inj (hl.symm.trans hm)
  rw [List.getLast?_concat] at ht
  obtain rfl := Option.some.inj ht
  obtain rfl : x = y := Option.some.inj (hx.symm.trans hy)
  exact hc

end Flow.Func

namespace Tree

open Flow.Func

section Code

variable {c : Scope} {f : Flow.Func} {e : Expr} {ids l s : List Id} {i : Id}
  (hvars : ∀ {ref v}, c.slotOf ref = .ok v → (f.varOf? v).isSome)

include hvars

lemma Computes.stacks (h : Computes c f e ids i) (hs : f.Stacks l s) :
    f.Stacks (l ++ ids) (s ++ [i]) := by
  induction h generalizing l s with
  | number hi => exact hs.value hi (by simp [needs]) rfl
  | @ident pos ref v i hv hi =>
    refine hs.value hi ?_ (c.loading_plain ref v).1
    unfold Scope.loading
    split <;> simp [needs, hvars hv]
  | @index pos ref offset v j a i ids _ hv ha hi ih =>
    have hnone : f.varOf? a = none := by
      rw [varOf?_of_live ha, Payload.asVar_of_produces (c.locating_plain ref v j).1]
    have haddr : f.Stacks (l ++ ids ++ [a]) (s ++ [a]) := by
      refine (ih hs).value ha ?_ (c.locating_plain ref v j).1
      unfold Scope.locating
      split <;> rfl
    have hload : f.Stacks (l ++ ids ++ [a] ++ [i]) (s ++ [i]) :=
      haddr.value hi (by simp [needs, hnone]) rfl
    simpa using hload
  | @binary pos op el er op' x y i ids ids' _ _ _ _ hi ihr ihl =>
    have hvalue : f.Stacks (l ++ ids ++ ids' ++ [i]) (s ++ [i]) :=
      (ihl (ihr hs)).value hi (by simp [needs]) rfl
    simpa using hvalue

lemma Tests.stacks (h : Tests c f e ids i) (hs : f.Stacks l s) : f.Stacks (l ++ ids) (s ++ [i]) := by
  cases h with
  | value h => exact h.stacks hvars hs
  | @compare pos op el er op' x y _ ids ids' _ _ hr hl hi =>
    have hvalue : f.Stacks (l ++ ids ++ ids' ++ [i]) (s ++ [i]) :=
      (hl.stacks hvars (hr.stacks hvars hs)).value hi (by simp [needs]) rfl
    simpa using hvalue

lemma Locates.stacks (h : Locates c f e ids i) (hs : f.Stacks l s) :
    ∃ t, f.Stacks (l ++ ids) (s ++ t) ∧ ∀ src, f.needs (.store i src) = t ++ [src] := by
  cases h with
  | @frame pos ref v _ hv => exact ⟨[], by simpa using hs, fun src => by simp [needs, hvars hv]⟩
  | @reference pos ref v i _ hv hi =>
    have hnone : f.varOf? i = none := by rw [varOf?_of_live hi]; rfl
    exact ⟨[i], hs.value hi (by simp [needs, hvars hv]) rfl, fun src => by simp [needs, hnone]⟩
  | @index pos ref offset v j a ids ho hv ha =>
    have hnone : f.varOf? i = none := by
      rw [varOf?_of_live ha, Payload.asVar_of_produces (c.locating_plain ref v j).1]
    have haddr : f.Stacks (l ++ ids ++ [i]) (s ++ [i]) := by
      refine (ho.stacks hvars hs).value ha ?_ (c.locating_plain ref v j).1
      unfold Scope.locating
      split <;> rfl
    exact ⟨[i], by simpa using haddr, fun src => by simp [needs, hnone]⟩

end Code

section Blocks

variable {c : Scope} {f : Flow.Func} {ss : List Stmt} {b b' d : BlockId} {l l' : List Id}
  {S T : Set BlockId}

/-- A block that clears and leads to blocks of `S`. -/
def Settles (f : Flow.Func) (S : Set BlockId) (d : BlockId) : Prop :=
  f.Clears d ∧ ∀ t, f.Leads d t → t ∈ S

lemma Settles.mono (h : Settles f S d) (hST : S ⊆ T) : Settles f T d :=
  ⟨h.1, fun t ht => hST (h.2 t ht)⟩

/-- The blocks of `S` settle, but for `b'`, which is still to be filled. -/
structure Covers (f : Flow.Func) (b b' : BlockId) (S : Set BlockId) : Prop where
  start : b ∈ S
  finish : b' ∈ S
  settles : ∀ d ∈ S, d ≠ b' → Settles f S d

lemma Covers.all (h : Covers f b b' S) (hb : Settles f T b') (hST : S ⊆ T) :
    ∀ d ∈ S, Settles f T d := by
  intro d hd
  by_cases hne : d = b'
  · exact hne ▸ hb
  · exact (h.settles d hd hne).mono hST

variable (hcloses : ∀ {b l}, f.listing? b = some l → f.Closes l)

include hcloses

/-- A block settles with a jump if nothing but what the jump takes is left before it. -/
lemma Within.settles {i : Id} {x : Payload} (hw : Within f b (l ++ [i])) (hx : f.live? i = some x)
    (hterm : x.isTerminal = true) (hs : f.Stacks l (f.needs x)) (hS : ∀ t ∈ x.targets, t ∈ S) :
    Settles f S b := by
  have hl : f.listing? b = some (l ++ [i]) := Closes.listing_eq hcloses hw hx hterm
  have hplain : x.produces = false := by
    cases hp : x.produces with
    | false => rfl
    | true =>
      rw [Payload.isTerminal_of_produces hp] at hterm
      cases hterm
  exact ⟨⟨_, hl, hs.effect hx rfl hplain⟩, fun t ht => hS t (targets_of_leads hl hx ht)⟩

variable (hvars : ∀ {ref v}, c.slotOf ref = .ok v → (f.varOf? v).isSome)

include hvars

lemma Flows.covers (h : Flows c f ss b l b' l') (hs : f.Stacks l []) :
    f.Stacks l' [] ∧ ∃ S, Covers f b b' S := by
  induction h with
  | @nil b l =>
    refine ⟨hs, {b}, rfl, rfl, fun d hd hne => absurd hd hne⟩
  | @assign pos dst src rest b b' l l' ids ids' d s i hd hsrc hi _ _ ih =>
    obtain ⟨t, hstacks, hneeds⟩ := hd.stacks hvars hs
    refine ih ?_
    have := (hsrc.stacks hvars hstacks).effect (s := []) hi (by rw [hneeds]; simp) rfl
    simpa using this
  | @readIdent pos pos' ref rest b b' l l' v r i hv hr hi _ _ ih =>
    refine ih ?_
    have hread : f.Stacks (l ++ [r]) [r] := hs.value (s := []) hr rfl rfl
    have hstore : f.Stacks (l ++ [r] ++ [i]) [] := by
      unfold Scope.storing at hi
      split at hi
      · exact hread.effect hi rfl rfl
      · exact hread.effect hi (by simp [needs, hvars hv]) rfl
    simpa using hstore
  | @readIndex pos pos' ref offset rest b b' l l' ids d r i hd hr hi _ _ ih =>
    obtain ⟨t, hstacks, hneeds⟩ := hd.stacks hvars hs
    refine ih ?_
    have hread : f.Stacks (l ++ ids ++ [r]) (t ++ [r]) := hstacks.value hr (by simp [needs]) rfl
    have hstore := hread.effect (s := []) hi (by rw [hneeds]; simp) rfl
    simpa using hstore
  | @write pos src rest b b' l l' ids s i hsrc hi _ _ ih =>
    refine ih ?_
    have hwrite := (hsrc.stacks hvars hs).effect (s := []) hi rfl rfl
    simpa using hwrite
  | @call pos k args rest b b' l l' ids i _ hi _ _ ih => exact ih (hs.effect hi rfl rfl)
  | @choose pos cond yes no rest b b' b₁ b₂ thenTo elseTo merge l l' l₁ l₂ ids t i i₁ i₂ ht hi hw _ h₁
      hw₁ _ h₂ hw₂ _ ihyes ihno ih =>
    obtain ⟨hs₁, S₁, hS₁⟩ := ihyes .nil
    obtain ⟨hs₂, S₂, hS₂⟩ := ihno .nil
    obtain ⟨hs', S, hS⟩ := ih .nil
    set T := insert b (S₁ ∪ S₂ ∪ S) with hT
    have hsub₁ : S₁ ⊆ T := fun d hd => by simp [hT, hd]
    have hsub₂ : S₂ ⊆ T := fun d hd => by simp [hT, hd]
    have hsub : S ⊆ T := fun d hd => by simp [hT, hd]
    have hb : Settles f T b :=
      Within.settles hcloses (by simpa using hw) hi rfl (ht.stacks hvars hs) fun d hd => by
        rcases List.mem_pair.mp hd with rfl | rfl
        · exact hsub₁ hS₁.start
        · exact hsub₂ hS₂.start
    have hmerge : ∀ d ∈ (Payload.branch merge).targets, d ∈ T :=
      fun d hd => hsub (List.mem_singleton.mp hd ▸ hS.start)
    refine ⟨hs', T, by simp [hT], hsub hS.finish, fun d hd hne => ?_⟩
    rcases hd with rfl | (hd | hd) | hd
    · exact hb
    · exact hS₁.all (hw₁.settles hcloses h₁ rfl hs₁ hmerge) hsub₁ d hd
    · exact hS₂.all (hw₂.settles hcloses h₂ rfl hs₂ hmerge) hsub₂ d hd
    · exact (hS.settles d hd hne).mono hsub
  | @loop pos cond body rest b b' b₁ head inside merge l l' l₁ ids t i i₁ i₂ hi hw ht h₁ hw₁ _ h₂ hw₂ _
      ihbody ih =>
    obtain ⟨hs₁, S₁, hS₁⟩ := ihbody .nil
    obtain ⟨hs', S, hS⟩ := ih .nil
    set T := insert b (insert head (S₁ ∪ S)) with hT
    have hsub₁ : S₁ ⊆ T := fun d hd => by simp [hT, hd]
    have hsub : S ⊆ T := fun d hd => by simp [hT, hd]
    have hback : ∀ d ∈ (Payload.branch head).targets, d ∈ T :=
      fun d hd => by simp [hT, List.mem_singleton.mp hd]
    have hhead : Settles f T head :=
      Within.settles hcloses hw₁ h₁ rfl (ht.stacks hvars .nil) fun d hd => by
        rcases List.mem_pair.mp hd with rfl | rfl
        · exact hsub₁ hS₁.start
        · exact hsub hS.start
    refine ⟨hs', T, by simp [hT], hsub hS.finish, fun d hd hne => ?_⟩
    rcases hd with rfl | rfl | hd | hd
    · exact hw.settles hcloses hi rfl hs hback
    · exact hhead
    · exact hS₁.all (hw₂.settles hcloses h₂ rfl hs₁ hback) hsub₁ d hd
    · exact (hS.settles d hd hne).mono hsub
  | @untilLoop pos cond body rest b b' b₁ inside merge l l' l₁ ids t i i₁ hi hw _ ht h₁ hw₁ _ ihbody
      ih =>
    obtain ⟨hs₁, S₁, hS₁⟩ := ihbody .nil
    obtain ⟨hs', S, hS⟩ := ih .nil
    set T := insert b (S₁ ∪ S) with hT
    have hsub₁ : S₁ ⊆ T := fun d hd => by simp [hT, hd]
    have hsub : S ⊆ T := fun d hd => by simp [hT, hd]
    have hinside : ∀ d ∈ (Payload.branch inside).targets, d ∈ T :=
      fun d hd => hsub₁ (List.mem_singleton.mp hd ▸ hS₁.start)
    have hlast : Settles f T b₁ :=
      Within.settles hcloses (by simpa using hw₁) h₁ rfl (ht.stacks hvars hs₁) fun d hd => by
        rcases List.mem_pair.mp hd with rfl | rfl
        · exact hsub hS.start
        · exact hsub₁ hS₁.start
    refine ⟨hs', T, by simp [hT], hsub hS.finish, fun d hd hne => ?_⟩
    rcases hd with rfl | hd | hd
    · exact hw.settles hcloses hi rfl hs hinside
    · exact hS₁.all hlast hsub₁ d hd
    · exact (hS.settles d hd hne).mono hsub

end Blocks

section Built

variable {arity : Nat → Nat → Prop} {k : Nat} {d : Proc} {f : Flow.Func} {b : BlockId} {i : Id}

lemma BuiltWith.clears (h : BuiltWith arity k d f) (hb : f.Reaches b) : f.Clears b := by
  obtain ⟨b', l', i, hflows, hi, hw⟩ := h.body
  have hcloses : ∀ {b l}, f.listing? b = some l → f.Closes l :=
    fun hl => h.orderly.closes hl (Set.notMem_empty _)
  have hvars : ∀ {ref v}, Scope.slotOf ⟨k, d⟩ ref = .ok v → (f.varOf? v).isSome := by
    intro ref v hv
    obtain ⟨w, hw, -⟩ := h.var hv
    rw [hw]
    rfl
  obtain ⟨hs, S, hS⟩ := hflows.covers hcloses hvars .nil
  have hlast : Settles f S b' := by
    refine hw.settles hcloses hi ?_ ?_ ?_ <;> split
    · rfl
    · rfl
    · exact hs
    · exact hs
    · simp [Payload.targets]
    · simp [Payload.targets]
  have hall := hS.all hlast subset_rfl
  have hmem : b ∈ S := by
    induction hb with
    | refl => exact hS.start
    | tail _ hleads ih => exact (hall _ ih).2 _ hleads
  exact (hall b hmem).1

lemma BuiltWith.uses (h : BuiltWith arity k d f) {x : Payload} (hx : f.live? i = some x)
    (hp : x.produces = true) : ∃ u, ∀ v, f.uses v i = if v = u then 1 else 0 := by
  obtain ⟨b, l, hl, hi⟩ := h.orderly.placed hx (Payload.asVar_of_produces hp)
  exact h.orderly.uses_of_clears (h.clears (h.reached (by rw [hl]; rfl))) hl hi hx hp

lemma BuiltWith.users_ncard (h : BuiltWith arity k d f) (hi : f.Producer i) :
    (f.users i).ncard = 1 := by
  obtain ⟨-, -, x, -, -, -, hx, hp⟩ := hi
  obtain ⟨u, hu⟩ := h.uses hx hp
  have hmem : ∀ v, v ∈ f.users i ↔ f.uses v i ≠ 0 := by
    intro v
    cases hy : f.live? v with
    | none => simp [users, hy, uses_of_none hy]
    | some y => simp [users, hy, uses_of_live hy, List.count_eq_zero]
  rw [Set.ncard_eq_one]
  refine ⟨u, Set.ext fun v => ?_⟩
  simp [hmem, hu]

end Built

end Tree

end Accumulator
