import Mathlib
import Accumulator.Proofs.CoalesceMeaning

/-!
# Coalescing comes to a fixed point

The loops of coalescing are stated without a bound: a sweep of a block that looks at the same place
again after each rewriting, a walk that sweeps the blocks as it comes to them, and rounds of walks until
one rewrites nothing. On a tidy function they come to an end, because every rewriting takes an
instruction out of its block, and the end is the one that coalescing computes. The last walk found no
rule that applies. Pruning takes nothing away that a rule looks at, so that coalescing once more
finds nothing either.
-/

namespace Accumulator.Flow.Func

variable {f g f' : Func} {b : BlockId} {i n m : Nat} {st st' : Nat × Func}

/-- Rules are tried at the places of a block from `i` on, and at the same place again after each
rewriting. The first part of the states counts the rewritings. -/
inductive Sweeps (b : BlockId) : Nat → Nat × Func → Nat × Func → Prop where
  | done {f : Func} {code : Array Id} {i n : Nat} : f.code b = .ok code → code.size ≤ i →
    Sweeps b i (n, f) (n, f)
  | skip {f : Func} {code : Array Id} {i n : Nat} {st : Nat × Func} : f.code b = .ok code →
    i < code.size → f.applyRule code i rules = .ok none → Sweeps b (i + 1) (n, f) st →
    Sweeps b i (n, f) st
  | apply {f f' : Func} {code : Array Id} {i n : Nat} {st : Nat × Func} : f.code b = .ok code →
    i < code.size → f.applyRule code i rules = .ok (some f') → Sweeps b i (n + 1, f') st →
    Sweeps b i (n, f) st

/-- The pending blocks are swept, and those that follow them, each once. -/
inductive Walks : List BlockId → Nat × Func → List BlockId → Nat × Func → Prop where
  | done {visited : List BlockId} {st : Nat × Func} : Walks visited st [] st
  | again {visited pending : List BlockId} {b : BlockId} {st st' : Nat × Func} : b ∈ visited →
    Walks visited st pending st' → Walks visited st (b :: pending) st'
  | visit {visited pending succs : List BlockId} {b : BlockId} {st mid st' : Nat × Func} :
    b ∉ visited → Sweeps b 0 st mid → mid.2.successors b = .ok succs →
    Walks (b :: visited) mid (succs ++ pending) st' → Walks visited st (b :: pending) st'

/-- Walks from the entry, the last of which rewrites nothing. -/
inductive Rounds : Nat × Func → Nat × Func → Prop where
  | last {st st' : Nat × Func} : Walks [] st [st.2.entry] st' → st'.1 = st.1 → Rounds st st'
  | more {st mid st' : Nat × Func} : Walks [] st [st.2.entry] mid → mid.1 ≠ st.1 →
    Rounds mid st' → Rounds st st'

lemma Rewrites.shorter (h : Rewrites f f' b) :
    ∃ l l', f.listing? b = some l ∧ f'.listing? b = some l' ∧ l'.length < l.length := by
  obtain ⟨v, pre, mid, mid', post, σ, hw, hs⟩ := h
  have hafter := hw.after b
  rw [Function.update_self] at hafter
  refine ⟨_, _, hw.before, hafter, ?_⟩
  simp only [List.length_append]
  cases hs <;> simp

lemma sweeps_of_sweep {l : List Id} {fuel : Nat} (hf : Tidy f) (hr : f.Reaches b)
    (hl : f.listing? b = some l) (hfuel : l.length < i + fuel)
    (h : sweep b fuel i (n, f) = .ok st) : Sweeps b i (n, f) st := by
  -- Each turn of the loop brings the end of the code closer, from one side or the other.
  induction fuel generalizing f l i n with
  | zero =>
    have hcode : f.code b = .ok l.toArray := code_eq_ok.mpr hl
    cases h
    exact .done hcode (by simp; omega)
  | succ fuel ih =>
    have hcode : f.code b = .ok l.toArray := code_eq_ok.mpr hl
    obtain ⟨o, ho, hrw⟩ := applyRule_proper l.toArray hf.sound hf.storeless hl i
    rw [sweep, hcode, ok_bind] at h
    split at h
    · next hi =>
      rw [ho, ok_bind] at h
      cases o with
      | none => exact .skip hcode hi ho (ih hf hr hl (by omega) h)
      | some g =>
        have hg := hrw g rfl
        obtain ⟨htidy, hkept⟩ := hg.keeps hf hr
        obtain ⟨l₀, l', hl₀, hl', hlt⟩ := hg.shorter
        obtain rfl : l = l₀ := Option.some.inj (hl.symm.trans hl₀)
        exact .apply hcode hi ho (ih htidy ((hkept.reaches b).mpr hr) hl' (by omega) h)
    · next hi =>
      cases h
      exact .done hcode (not_lt.mp hi)

lemma sweeps_of_coalesceBlock (hf : Tidy st.2) (hr : st.2.Reaches b)
    (h : coalesceBlock st b = .ok st') : Sweeps b 0 st st' := by
  obtain ⟨l, hl, -⟩ := hf.wellFormed.closes hr
  have hcode : st.2.code b = .ok l.toArray := code_eq_ok.mpr hl
  unfold coalesceBlock at h
  rw [hcode, ok_bind] at h
  exact sweeps_of_sweep hf hr hl (by simp) h

lemma walks_of_walkFrom {visited visited' pending : List BlockId} (hf : Tidy f)
    (hst : Counts (n, f) st) (hpending : ∀ b ∈ pending, f.Reaches b)
    (h : walkFrom m (fun st b => st.2.successors b) coalesceBlock visited st pending =
      .ok (st', visited')) :
    Walks visited st pending st' ∧ Counts (n, f) st' := by
  induction visited, st, pending using walkFrom.induct m (fun st b => st.2.successors b)
    coalesceBlock with
  | case1 visited st =>
    rw [walkFrom] at h
    cases h
    exact ⟨.done, hst⟩
  | case2 visited st pending k =>
    rw [walkFrom] at h
    cases h
  | case3 visited st pending k hv ih =>
    rw [walkFrom, dif_pos hv] at h
    obtain ⟨hwalks, hst'⟩ := ih hst (fun b hb => hpending b (by simp [hb])) h
    exact ⟨.again hv hwalks, hst'⟩
  | case4 visited st pending k hv hk e he =>
    rw [walkFrom, dif_neg hv, dif_pos hk, he] at h
    cases h
  | case5 visited st pending k hv hk mid e hmid he =>
    rw [walkFrom, dif_neg hv, dif_pos hk, hmid] at h
    simp only [he] at h
    cases h
  | case6 visited st pending k hv hk mid succs hmid hsuccs ih =>
    rw [walkFrom, dif_neg hv, dif_pos hk, hmid] at h
    simp only [hsuccs] at h
    have hr : f.Reaches (.ofNat k) := hpending _ (by simp)
    obtain ⟨htidy, hkept⟩ := hst.coalesces.keeps hf
    have hsweeps := sweeps_of_coalesceBlock htidy ((hkept.reaches _).mpr hr) hmid
    obtain ⟨mid', hmid', hcounts⟩ := coalesceBlock_ok hf hr hst
    obtain rfl : mid = mid' := Except.ok.inj (hmid.symm.trans hmid')
    obtain ⟨htidy', hkept'⟩ := hcounts.coalesces.keeps hf
    obtain ⟨l, hl, -⟩ := htidy'.wellFormed.closes ((hkept'.reaches _).mpr hr)
    obtain ⟨succs', hsuccs', hmem⟩ := htidy'.sound.successors hl
    obtain rfl : succs = succs' := Except.ok.inj (hsuccs.symm.trans hsuccs')
    obtain ⟨hwalks, hst'⟩ := ih hcounts (fun c hc => by
      rcases List.mem_append.mp hc with hc | hc
      · exact hr.tail ((hkept'.leads _ c).mp ((hmem c).mp hc))
      · exact hpending c (by simp [hc])) h
    exact ⟨.visit hv hsweeps hsuccs hwalks, hst'⟩
  | case7 visited st pending k hv hk =>
    rw [walkFrom, dif_neg hv, dif_neg hk] at h
    cases h

lemma walks_of_walk (hf : Tidy f) (h : f.walk (fun st => st.2) coalesceBlock (n, f) = .ok st) :
    Walks [] (n, f) [f.entry] st ∧ Counts (n, f) st := by
  rw [walk, map_eq_pure_bind, bind_eq_ok] at h
  obtain ⟨⟨st', visited⟩, hfrom, hst⟩ := h
  cases hst
  apply walks_of_walkFrom hf .refl _ hfrom
  intro c hc
  rw [List.mem_singleton.mp hc]
  exact Relation.ReflTransGen.refl

/-- What applies nowhere in the first function applies nowhere in the second. -/
def KeepsIdle (x y : Except Fault (Option Func)) : Prop := x = .ok none → y = .ok none

lemma KeepsIdle.bind {α : Type} {x : Except Fault α} {r r' : α → Except Fault (Option Func)}
    (h : ∀ a, x = .ok a → KeepsIdle (r a) (r' a)) : KeepsIdle (x >>= r) (x >>= r') := by
  intro hx
  obtain ⟨a, rfl, ha⟩ := bind_eq_ok.mp hx
  exact h a rfl ha

lemma KeepsIdle.ite {c : Prop} [Decidable c] {r r' : Except Fault (Option Func)}
    (h : c → KeepsIdle r r') :
    KeepsIdle (if c then r else pure none) (if c then r' else pure none) := by
  split
  · next hc => exact h hc
  · exact id

lemma KeepsIdle.refl (x : Except Fault (Option Func)) : KeepsIdle x x := id

lemma KeepsIdle.of_ne {x y : Except Fault (Option Func)} (h : x ≠ .ok none) : KeepsIdle x y :=
  fun hx => absurd hx h

lemma varOf?_of_hasUsers {v : Id} (hv : (f.at? v).isSome) (h : f.hasUsers v n = .ok true) :
    (f.varOf? v).isSome := by
  rw [Func.hasUsers, var?_eq hv, ok_bind] at h
  cases ho : f.varOf? v with
  | none =>
    rw [ho] at h
    cases h
  | some w => rfl

namespace SameCode

variable (h : SameCode f f')
include h

lemma code (b : BlockId) : f'.code b = f.code b := by
  rw [Func.code, Func.code, h.blocks]

lemma var? (i : Id) : f'.var? i = f.var? i := by
  rw [Func.var?, Func.var?, h.payload]

lemma loadAt (code : Array Id) (i : Nat) : f'.loadAt code i = f.loadAt code i := by
  simp only [Func.loadAt, h.payload]

lemma storeAt (code : Array Id) (i : Nat) : f'.storeAt code i = f.storeAt code i := by
  simp only [Func.storeAt, h.payload]

lemma hasUsers (v : Id) (n : Nat) : f'.hasUsers v n = f.hasUsers v n := by
  simp only [Func.hasUsers, h.var?, h.refs]

lemma successors (b : BlockId) : f'.successors b = f.successors b := by
  simp only [Func.successors, terminator?, h.code, h.payload]

lemma forward (code : Array Id) (i : Nat) : KeepsIdle (forward f code i) (forward f' code i) := by
  unfold Func.forward
  rw [h.loadAt, h.storeAt, h.loadAt]
  refine .bind fun l? _ => .bind fun s? _ => .bind fun m? _ => ?_
  split
  · rw [h.hasUsers]
    exact .ite fun _ => .bind fun _ _ => .ite fun _ => .of_ne (by simp [bind_eq_ok])
  · exact .refl _

lemma reorder (code : Array Id) (i : Nat) : KeepsIdle (reorder f code i) (reorder f' code i) := by
  unfold Func.reorder
  rw [h.loadAt, h.storeAt, h.loadAt, h.loadAt]
  refine .bind fun l₁? _ => .bind fun s? _ => .bind fun l₂? _ => .bind fun l₃? _ => ?_
  split
  · rw [h.hasUsers, h.var?, h.var?]
    exact .ite fun _ => .bind fun _ _ => .ite fun _ => .bind fun _ _ => .ite fun _ => .bind fun _ _ =>
      .ite fun _ => .of_ne (by simp [bind_eq_ok])
  · exact .refl _

lemma storeLoadStore (code : Array Id) (i : Nat) :
    KeepsIdle (storeLoadStore f code i) (storeLoadStore f' code i) := by
  unfold Func.storeLoadStore
  rw [h.storeAt, h.loadAt, h.storeAt]
  refine .bind fun s? _ => .bind fun l? _ => .bind fun t? _ => ?_
  split
  · rw [h.hasUsers, h.var?]
    exact .ite fun _ => .bind fun _ _ => .ite fun _ => .bind fun _ _ => .ite fun _ =>
      .of_ne (by simp [bind_eq_ok])
  · exact .refl _

lemma roundTrip (code : Array Id) (i : Nat) :
    KeepsIdle (roundTrip f code i) (roundTrip f' code i) := by
  unfold Func.roundTrip
  rw [h.storeAt, h.loadAt]
  refine .bind fun s? _ => .bind fun l? _ => ?_
  split
  · rw [h.hasUsers]
    exact .ite fun _ => .bind fun _ _ => .ite fun _ => .of_ne (by simp [bind_eq_ok])
  · exact .refl _

lemma loadPair (code : Array Id) (i : Nat) : KeepsIdle (loadPair f code i) (loadPair f' code i) := by
  unfold Func.loadPair
  rw [h.storeAt, h.loadAt, h.loadAt]
  refine .bind fun s? _ => .bind fun a? _ => .bind fun b? _ => ?_
  split
  · rw [h.hasUsers, h.var?]
    exact .ite fun _ => .bind fun _ _ => .ite fun _ => .bind fun _ _ => .ite fun _ =>
      .of_ne (by simp [bind_eq_ok])
  · exact .refl _

lemma doubleReload {code : Array Id} (hf : Sound f) (hc : f.listing? b = some code.toList) (i : Nat) :
    KeepsIdle (doubleReload f code i) (doubleReload f' code i) := by
  unfold Func.doubleReload
  rw [h.storeAt, h.loadAt, h.loadAt]
  rcases hf.storeAt hc i with h₁ | ⟨s, v, x, i₁, e₁, h₁⟩ <;>
    rcases hf.loadAt hc (i + 1) with h₂ | ⟨a, m, i₂, e₂, h₂⟩ <;>
    rcases hf.loadAt hc (i + 2) with h₃ | ⟨c, w, i₃, e₃, h₃⟩ <;>
    simp only [h₁, h₂, h₃, ok_bind] <;> try exact .refl _
  rw [h.hasUsers]
  refine .ite ?_
  rintro ⟨hx, rfl, rfl⟩
  refine .bind fun r hr => .ite fun hv => .of_ne ?_
  obtain ⟨pre, hpre⟩ := split_produced hx
  obtain ⟨t, ht⟩ := slot_of_live e₂
  rw [hpre, drop_getElem? i₁, drop_getElem? i₂, drop_getElem? i₃] at hc
  obtain ⟨f₁, f₂, f₃, f₄, f₅, f₆, d₁, d₂, d₃, d₄, d₅, d₆, d₇, -⟩ :=
    hf.double t.loc hc e₁ (varOf?_of_hasUsers (hf.operands e₁ _ mem_operands_store) (hv ▸ hr))
  simp [ht, d₁, d₂, d₃, d₄, d₅, d₆, d₇]

lemma applyRule {code : Array Id} (hf : Sound f) (hc : f.listing? b = some code.toList) (i : Nat) :
    KeepsIdle (f.applyRule code i rules) (f'.applyRule code i rules) := by
  have hrules : ∀ r ∈ rules, KeepsIdle (r f code i) (r f' code i) := by
    simp only [rules, List.forall_mem_cons, List.not_mem_nil, false_implies, implies_true, and_true]
    exact ⟨h.forward code i, h.reorder code i, h.storeLoadStore code i, h.roundTrip code i,
      h.loadPair code i, h.doubleReload hf hc i⟩
  generalize rules = rs at hrules
  induction rs with
  | nil => exact .refl _
  | cons r rs ih =>
    intro hnone
    rw [Func.applyRule, bind_eq_ok] at hnone
    obtain ⟨o, ho, hrest⟩ := hnone
    cases o with
    | some g => cases hrest
    | none =>
      rw [Func.applyRule, hrules r (by simp) ho, ok_bind]
      exact ih (fun q hq => hrules q (by simp [hq])) hrest

end SameCode

lemma Sweeps.code (h : Sweeps b i st st') : ∃ code, st.2.code b = .ok code := by
  cases h with
  | done hcode | skip hcode | apply hcode => exact ⟨_, hcode⟩

lemma Sweeps.le (h : Sweeps b i st st') : st.1 ≤ st'.1 := by
  induction h with
  | done => exact le_rfl
  | skip _ _ _ _ ih => exact ih
  | apply _ _ _ _ ih => exact (Nat.le_succ _).trans ih

/-- A sweep that counts nothing changes nothing, and does so again in a function with the same
code. -/
lemma Sweeps.still (h : Sweeps b i st st') (hf : Sound st.2) (hn : st'.1 = st.1) :
    st' = st ∧ ∀ f', SameCode st.2 f' → ∀ fuel m, sweep b fuel i (m, f') = .ok (m, f') := by
  induction h with
  | done hcode hi =>
    refine ⟨rfl, fun f' hm fuel m => ?_⟩
    cases fuel with
    | zero => rfl
    | succ fuel =>
      rw [sweep, hm.code, hcode, ok_bind, if_neg (not_lt.mpr hi)]
      rfl
  | skip hcode hi hnone _ ih =>
    obtain ⟨rfl, hrest⟩ := ih hf hn
    refine ⟨rfl, fun f' hm fuel m => ?_⟩
    cases fuel with
    | zero => rfl
    | succ fuel =>
      have hnone' := hm.applyRule hf (code_eq_ok.mp hcode) _ hnone
      rw [sweep, hm.code, hcode, ok_bind, if_pos hi, hnone', ok_bind]
      exact hrest f' hm fuel m
  | apply _ _ _ hsweeps _ =>
    have := hsweeps.le
    dsimp only at this hn
    omega

lemma Walks.le {visited pending : List BlockId} (h : Walks visited st pending st') :
    st.1 ≤ st'.1 := by
  induction h with
  | done => exact le_rfl
  | again _ _ ih => exact ih
  | visit _ hsweeps _ _ ih => exact hsweeps.le.trans ih

lemma Walks.still {visited pending : List BlockId} (h : Walks visited st pending st')
    (hf : Sound st.2) (hn : st'.1 = st.1) (hvisited : ∀ b ∈ visited, 0 ≤ b) :
    st' = st ∧ ∀ f', SameCode st.2 f' → ∀ m, ∃ visited',
      walkFrom f'.blocks.size (fun st b => st.2.successors b) coalesceBlock visited (m, f') pending =
        .ok ((m, f'), visited') := by
  induction h with
  | done => exact ⟨rfl, fun f' _ m => ⟨_, by rw [walkFrom]⟩⟩
  | @again visited pending b st st' hv _ ih =>
    obtain ⟨heq, hrest⟩ := ih hf hn hvisited
    refine ⟨heq, fun f' hm m => ?_⟩
    obtain ⟨visited', hwalk⟩ := hrest f' hm m
    cases b with
    | negSucc k => exact absurd (hvisited _ hv) (not_le.mpr (Int.negSucc_lt_zero k))
    | ofNat k =>
      have hk : (k : Int) ∈ visited := hv
      exact ⟨visited', by rw [walkFrom, dif_pos hk, hwalk]⟩
  | @visit visited pending succs b st mid st' hv hsweeps hsuccs hwalks ih =>
    obtain ⟨code, hcode⟩ := hsweeps.code
    have hle := hsweeps.le
    have hle' := hwalks.le
    obtain ⟨rfl, hsweep⟩ := hsweeps.still hf (by omega)
    obtain ⟨hlo, hhi⟩ := bounds_of_listing? (code_eq_ok.mp hcode)
    obtain ⟨heq, hrest⟩ := ih hf hn (List.forall_mem_cons.mpr ⟨hlo, hvisited⟩)
    refine ⟨heq, fun f' hm m => ?_⟩
    obtain ⟨visited', hwalk⟩ := hrest f' hm m
    have hblock : coalesceBlock (m, f') b = .ok (m, f') := by
      rw [coalesceBlock, hm.code, hcode, ok_bind]
      exact hsweep f' hm _ m
    cases b with
    | negSucc k => exact absurd hlo (not_le.mpr (Int.negSucc_lt_zero k))
    | ofNat k =>
      have hnew : (k : Int) ∉ visited := hv
      have hk : k < f'.blocks.size := by
        rw [hm.blocks]
        exact Int.ofNat_lt.mp hhi
      refine ⟨visited', ?_⟩
      rw [walkFrom, dif_neg hnew, dif_pos hk, hblock]
      simp only [hm.successors, hsuccs]
      exact hwalk

lemma rounds_of_coalesceRounds {fuel : Nat} (hf : Tidy f) (hfuel : f.size < fuel)
    (h : coalesceRounds fuel (n, f) = .ok st) :
    Rounds (n, f) st ∧ Walks [] st [st.2.entry] st := by
  induction fuel generalizing f n with
  | zero => omega
  | succ fuel ih =>
    rw [coalesceRounds, bind_eq_ok] at h
    obtain ⟨⟨m, g⟩, hwalk, h⟩ := h
    obtain ⟨hwalks, hcounts⟩ := walks_of_walk hf hwalk
    dsimp only at h
    split at h
    · next hmn =>
      cases h
      obtain ⟨heq, -⟩ := hwalks.still hf.sound hmn (by simp)
      refine ⟨.last hwalks hmn, ?_⟩
      rw [heq] at hwalks ⊢
      exact hwalks
    · next hmn =>
      have hsize : g.size < f.size := by
        have := hcounts.size
        dsimp only at this hmn
        omega
      obtain ⟨hrounds, hlast⟩ := ih (hcounts.coalesces.keeps hf).1
        (hsize.trans_le (Nat.le_of_lt_succ hfuel)) h
      exact ⟨.more hwalks hmn hrounds, hlast⟩

lemma coalesceRounds_still {fuel : Nat} (hf : Sound g) (hwalks : Walks [] (n, g) [g.entry] (n, g))
    (hm : SameCode g f') (hentry : f'.entry = g.entry) :
    coalesceRounds (fuel + 1) (0, f') = .ok (0, f') := by
  obtain ⟨-, hwalk⟩ := hwalks.still hf rfl (by simp)
  obtain ⟨visited, hwalk⟩ := hwalk f' hm 0
  have hok : f'.walk (fun st => st.2) coalesceBlock (0, f') = .ok (0, f') := by
    rw [walk, hentry, hwalk]
    rfl
  rw [coalesceRounds, hok, ok_bind]
  rfl

lemma pruneLocals_still (h : ∀ v ∈ f.locals, f.referred v = true) : f.pruneLocals = .ok f := by
  have hfold : ∀ l kept : List Id, (∀ v ∈ l, f.referred v = true) →
      l.foldlM (fun (st : Func × List Id) v => do
        if (← st.1.refs v).isEmpty then return (← st.1.erase v, st.2)
        else return (st.1, st.2 ++ [v])) (f, kept) = (.ok (f, kept ++ l) : Except Fault _) := by
    intro l
    induction l with
    | nil => simp
    | cons v l ih =>
      intro kept hl
      obtain ⟨u, us, hrefs⟩ : ∃ u us, f.refs v = .ok (u :: us) := by
        have hv := hl v (by simp)
        unfold referred at hv
        split at hv
        · next u us hrefs => exact ⟨u, us, hrefs⟩
        · cases hv
      rw [List.foldlM_cons, hrefs, ok_bind]
      have hrest := ih (kept ++ [v]) fun w hw => hl w (by simp [hw])
      rw [List.append_assoc] at hrest
      exact hrest
  unfold pruneLocals
  rw [hfold f.locals [] h]
  rfl

end Accumulator.Flow.Func

namespace Accumulator.Flow

open Func

variable {f : Func}

/-- Coalescing a function that was made by edits, passes its checks and uses no store as an operand
comes to an end: its loops, which have no bound of their own, end after `n` rewritings, and then the
local variables are pruned. The function has lost one or two instructions with each rewriting, and the
local variables that no instruction refers to any more; the others stay in order. Coalescing once more
rewrites nothing and changes nothing. -/
theorem coalesce_fixpoint (hmade : Made f) (hverify : f.verify = .ok (.ok ())) (hstore : Storeless f) :
    ∃ n g f', Rounds (0, f) (n, g) ∧ g.pruneLocals = .ok f' ∧ f.coalesce = .ok (n, f') ∧
      f'.size + n ≤ f.size ∧ f.size ≤ f'.size + 2 * n ∧
      f'.locals = f.locals.filter f'.referred ∧ f'.coalesce = .ok (0, f') := by
  obtain ⟨hsound, hframed⟩ := hmade.sound
  have hf : Tidy f := ⟨hsound, hsound.verify_iff.mp hverify, hstore⟩
  obtain ⟨⟨n, g⟩, hrounds, hcounts⟩ :=
    coalesceRounds_ok hf (f.size + 1) 0 Relation.ReflTransGen.refl
  obtain ⟨htidy, hkept⟩ := hcounts.coalesces.keeps hf
  obtain ⟨hloops, hlast⟩ := rounds_of_coalesceRounds hf (Nat.lt_succ_self _) hrounds
  obtain ⟨f', hprune, -, hsame, hlocals, slots, blocks, locals, hf'⟩ :=
    pruneLocals_ok htidy.sound (hkept.framed hframed)
  have hok : f.coalesce = .ok (n, f') := by
    rw [coalesce, hrounds, ok_bind]
    simp only [hprune, ok_bind, pure_eq_ok]
  obtain ⟨n', f'', hok', -, hsize⟩ := hf.coalesce_ok hframed
  obtain ⟨rfl, rfl⟩ : n = n' ∧ f' = f'' := by simpa using hok.symm.trans hok'
  have hkeep : f'.locals = f.locals.filter f'.referred := by
    obtain ⟨slots, blocks, rfl⟩ := hkept.frame
    rw [hlocals, hsame.referred]
  have hagain : coalesceRounds (f'.size + 1) (0, f') = .ok (0, f') :=
    coalesceRounds_still htidy.sound hlast hsame (by rw [hf'])
  have hstill : f'.pruneLocals = .ok f' := by
    apply pruneLocals_still
    intro v hv
    rw [hkeep] at hv
    exact (List.mem_filter.mp hv).2
  refine ⟨n, g, f', hloops, hprune, hok, hsize.1, hsize.2, hkeep, ?_⟩
  rw [coalesce, hagain, ok_bind]
  simp only [hstill, ok_bind, pure_eq_ok]

/-- A constant that is stored and read again. -/
theorem rereading_fixpoint :
    Made rereading ∧ rereading.verify = .ok (.ok ()) ∧ Storeless rereading ∧
      (∃ g, Rounds (0, rereading) (1, g)) ∧
      rereadingCoalesced.locals = rereading.locals.filter rereadingCoalesced.referred ∧
      rereadingCoalesced.coalesce = .ok (0, rereadingCoalesced) := by
  obtain ⟨n, g, f', hloops, -, hok, -, -, hlocals, hagain⟩ :=
    coalesce_fixpoint rereading_made rereading_verify rereading_storeless
  obtain ⟨rfl, rfl⟩ : 1 = n ∧ rereadingCoalesced = f' := by
    simpa using rereading_coalesce.symm.trans hok
  exact ⟨rereading_made, rereading_verify, rereading_storeless, ⟨g, hloops⟩, hlocals, hagain⟩

end Accumulator.Flow
