import Mathlib
import Accumulator.BitSet

/-!
# Bit sets as finite sets

The members of a bit set are a finite set of natural numbers. Every operation on the words does to the
members what its name says, so that a history of operations can be followed on finite sets: the answers are
the same, the size is the cardinality, and the enumeration goes over the sorted members.
-/

namespace Accumulator.BitSet

variable {s : BitSet} {w : UInt64} {i j k n : ℕ} {σ : Type}

lemma testBit_zero (j : ℕ) : testBit 0 j = false := by
  simp [testBit]

lemma testBit_or_bit (w : UInt64) (hi : i < 64) (hj : j < 64) :
    testBit (w ||| bit i) j = (decide (i = j) || testBit w j) := by
  rw [testBit_eq _ hj, testBit_eq _ hj, UInt64.toNat_or, toNat_bit hi, Nat.one_shiftLeft,
    Nat.testBit_or, Nat.testBit_two_pow, Bool.or_comm]

lemma testBit_clear (w : UInt64) (hi : i < 64) (hj : j < 64) :
    testBit (w &&& ~~~bit i) j = (!decide (i = j) && testBit w j) := by
  have hnot : (~~~bit i).toNat.testBit j = !decide (i = j) := by
    have hlt : (bit i).toNat < 2 ^ 64 := (bit i).toNat_lt
    have hsub : (~~~bit i).toNat = 2 ^ 64 - ((bit i).toNat + 1) := by
      rw [UInt64.toNat_not, UInt64.size]
      omega
    rw [hsub, Nat.testBit_two_pow_sub_succ hlt, toNat_bit hi, Nat.one_shiftLeft, Nat.testBit_two_pow,
      decide_eq_true hj, Bool.true_and]
  rw [testBit_eq _ hj, testBit_eq _ hj, UInt64.toNat_and, Nat.testBit_and, hnot, Bool.and_comm]

/-- The bits of a word that are set, ascending. -/
def ones (w : UInt64) : List ℕ := (List.range 64).filter (testBit w)

lemma ones_zero : ones 0 = [] :=
  List.filter_eq_nil_iff.mpr fun j _ => by simp [testBit_zero]

lemma mem_ones : j ∈ ones w ↔ j < 64 ∧ testBit w j = true := by
  rw [ones, List.mem_filter, List.mem_range]

lemma pairwise_ones (w : UInt64) : (ones w).Pairwise (· < ·) := List.pairwise_lt_range.filter _

lemma trailingZeros_le (hbit : testBit w j = true) : trailingZeros w ≤ j := by
  by_contra hlt
  have hnot := List.not_of_lt_findIdx (show j < (List.range 64).findIdx (testBit w) from not_le.mp hlt)
  rw [List.getElem_range, hbit] at hnot
  cases hnot

lemma ones_of_ne_zero (hw : w ≠ 0) :
    ones w = trailingZeros w :: ones (w &&& ~~~bit (trailingZeros w)) := by
  have hlt := trailingZeros_lt hw
  have hrest : ∀ j, j ∈ ones (w &&& ~~~bit (trailingZeros w)) ↔ j ∈ ones w ∧ trailingZeros w ≠ j := by
    intro j
    simp only [mem_ones]
    constructor
    · rintro ⟨hj, hbit⟩
      rw [testBit_clear w hlt hj, Bool.and_eq_true, Bool.not_eq_true', decide_eq_false_iff_not] at hbit
      exact ⟨⟨hj, hbit.2⟩, hbit.1⟩
    · rintro ⟨⟨hj, hbit⟩, hne⟩
      refine ⟨hj, ?_⟩
      rw [testBit_clear w hlt hj, hbit, decide_eq_false hne]
      rfl
  refine List.Pairwise.eq_of_mem_iff (pairwise_ones w) (List.pairwise_cons.mpr ⟨?_, pairwise_ones _⟩) ?_
  · intro j hj
    obtain ⟨hmem, hne⟩ := (hrest j).mp hj
    exact lt_of_le_of_ne (trailingZeros_le (mem_ones.mp hmem).2) hne
  · intro j
    rw [List.mem_cons, hrest]
    by_cases hne : j = trailingZeros w
    · simp [hne, mem_ones, hlt, testBit_trailingZeros hw]
    · simp [hne, Ne.symm hne]

/-- Call `f` on the items of a list until it answers `false`: the state, and whether to go on. -/
def callUntil (f : σ → ℕ → σ × Bool) : List ℕ → σ → σ × Bool
  | [], st => (st, true)
  | k :: ks, st =>
    match f st k with
    | (st, false) => (st, false)
    | (st, true) => callUntil f ks st

lemma callUntil_append (f : σ → ℕ → σ × Bool) (l m : List ℕ) (st : σ) :
    callUntil f (l ++ m) st =
      match callUntil f l st with
      | (st, false) => (st, false)
      | (st, true) => callUntil f m st := by
  induction l generalizing st with
  | nil => rfl
  | cons k l ih =>
    rw [List.cons_append, callUntil, callUntil]
    rcases f st k with ⟨st', _ | _⟩
    · rfl
    · exact ih st'

lemma rangeWord_eq (f : σ → ℕ → σ × Bool) (i : ℕ) (w : UInt64) (st : σ) :
    rangeWord f i w st = callUntil f ((ones w).map (i * 64 + ·)) st := by
  induction w, st using rangeWord.induct f i with
  | case1 st =>
    rw [rangeWord, ones_zero]
    rfl
  | case2 w st hw j st' hf =>
    rw [rangeWord, ones_of_ne_zero hw, List.map_cons, callUntil]
    simp only [hw, dite_false, j] at hf ⊢
    simp only [hf]
  | case3 w st hw j st' hf ih =>
    rw [rangeWord, ones_of_ne_zero hw, List.map_cons, callUntil]
    simp only [hw, dite_false, j] at hf ih ⊢
    simp only [hf, ih]

/-- The members that words hold, of which the first has number `i`, ascending. -/
def membersFrom (i : ℕ) : List UInt64 → List ℕ
  | [] => []
  | w :: ws => (ones w).map (i * 64 + ·) ++ membersFrom (i + 1) ws

lemma rangeFrom_eq (f : σ → ℕ → σ × Bool) (i : ℕ) (ws : List UInt64) (st : σ) :
    rangeFrom f i ws st = callUntil f (membersFrom i ws) st := by
  induction ws generalizing i st with
  | nil => rfl
  | cons w ws ih =>
    rw [rangeFrom, rangeWord_eq, membersFrom, callUntil_append]
    rcases callUntil f ((ones w).map (i * 64 + ·)) st with ⟨st', _ | _⟩
    · rfl
    · exact ih (i + 1) st'

lemma mem_membersFrom {ws : List UInt64} :
    k ∈ membersFrom i ws ↔ i ≤ k / 64 ∧ testBit (ws[k / 64 - i]?.getD 0) (k % 64) = true := by
  induction ws generalizing i with
  | nil => simp [membersFrom, testBit_zero]
  | cons w ws ih =>
    have hword : k ∈ (ones w).map (i * 64 + ·) ↔ k / 64 = i ∧ testBit w (k % 64) = true := by
      simp only [List.mem_map, mem_ones]
      constructor
      · rintro ⟨j, ⟨hj, hbit⟩, rfl⟩
        rw [show (i * 64 + j) % 64 = j by omega]
        exact ⟨by omega, hbit⟩
      · rintro ⟨rfl, hbit⟩
        exact ⟨k % 64, ⟨Nat.mod_lt k (by decide), hbit⟩, by omega⟩
    rw [membersFrom, List.mem_append, hword, ih]
    rcases Nat.lt_trichotomy (k / 64) i with h | h | h
    · constructor <;> rintro h' <;> omega
    · simp [h]
    · obtain ⟨d, hd⟩ : ∃ d, k / 64 - i = d + 1 := ⟨k / 64 - i - 1, by omega⟩
      rw [hd, List.getElem?_cons_succ, show k / 64 - (i + 1) = d by omega]
      simp [show ¬ k / 64 = i by omega, show i + 1 ≤ k / 64 by omega, h.le]

lemma pairwise_membersFrom (i : ℕ) (ws : List UInt64) : (membersFrom i ws).Pairwise (· < ·) := by
  induction ws generalizing i with
  | nil => exact List.Pairwise.nil
  | cons w ws ih =>
    refine List.pairwise_append.mpr ⟨?_, ih (i + 1), fun a ha b hb => ?_⟩
    · exact (pairwise_ones w).map _ fun a b hab => by omega
    · obtain ⟨j, hj, rfl⟩ := List.mem_map.mp ha
      have hlow := (mem_ones.mp hj).1
      have hhigh := (mem_membersFrom.mp hb).1
      omega

lemma contains_eq (s : BitSet) (k : ℕ) : s.contains k = testBit (s.words[k / 64]?.getD 0) (k % 64) := by
  rw [contains]
  cases s.words[k / 64]? with
  | none => exact (testBit_zero _).symm
  | some w => rfl

/-- The members as a finite set. -/
def members (s : BitSet) : Finset ℕ := (membersFrom 0 s.words.toList).toFinset

lemma mem_members : k ∈ s.members ↔ s.contains k = true := by
  rw [members, List.mem_toFinset, mem_membersFrom, contains_eq]
  simp

lemma sort_members (s : BitSet) : s.members.sort (· ≤ ·) = membersFrom 0 s.words.toList := by
  have hsorted := pairwise_membersFrom 0 s.words.toList
  exact (List.toFinset_sort _ hsorted.nodup).mpr (hsorted.imp le_of_lt)

lemma range_eq (s : BitSet) (f : σ → ℕ → σ × Bool) (st : σ) :
    s.range f st = (callUntil f (s.members.sort (· ≤ ·)) st).1 := by
  rw [range, rangeFrom_eq, sort_members]

lemma size_eq_card (s : BitSet) : s.size = s.members.card := by
  have hlength : ∀ i (ws : List UInt64) n,
      ws.foldl (fun n w => n + ((List.range 64).filter (testBit w)).length) n =
        n + (membersFrom i ws).length := by
    intro i ws
    induction ws generalizing i with
    | nil => exact fun n => rfl
    | cons w ws ih =>
      intro n
      rw [List.foldl_cons, ih (i + 1), membersFrom, List.length_append, List.length_map, ones, Nat.add_assoc]
  rw [members, List.toFinset_card_of_nodup (pairwise_membersFrom 0 _).nodup, size, ← Array.foldl_toList,
    hlength 0, Nat.zero_add]

lemma getD_grow (words : Array UInt64) (i j : ℕ) : (grow words i)[j]?.getD 0 = words[j]?.getD 0 := by
  rw [grow, Array.getElem?_append]
  split
  · rfl
  · next hj =>
    have hnone : words[j]? = none := Array.getElem?_eq_none (by omega)
    rw [hnone, Array.getElem?_replicate]
    split <;> rfl

lemma size_grow (words : Array UInt64) (i : ℕ) : i < (grow words i).size := by
  simp only [grow, Array.size_append, Array.size_replicate]
  omega

lemma contains_insert (s : BitSet) (k j : ℕ) :
    (s.insert k).contains j = (decide (k = j) || s.contains j) := by
  have hj := Nat.mod_lt j (show 64 > 0 by decide)
  have hk := Nat.mod_lt k (show 64 > 0 by decide)
  rw [contains_eq, contains_eq, insert, Array.getElem?_modify, ← getD_grow s.words (k / 64)]
  by_cases hword : k / 64 = j / 64
  · obtain ⟨w, hw⟩ : ∃ w, (grow s.words (k / 64))[j / 64]? = some w :=
      ⟨_, Array.getElem?_eq_getElem (hword ▸ size_grow s.words (k / 64))⟩
    have hsame : k % 64 = j % 64 ↔ k = j := by omega
    simp only [hword, if_true]
    rw [hword] at hw
    simp only [hw, Option.map_some, Option.getD_some, testBit_or_bit w hk hj, hsame]
  · have hne : k ≠ j := fun h => hword (by rw [h])
    simp [hword, hne]

lemma contains_erase (s : BitSet) (k j : ℕ) :
    (s.erase k).contains j = (!decide (k = j) && s.contains j) := by
  have hj := Nat.mod_lt j (show 64 > 0 by decide)
  have hk := Nat.mod_lt k (show 64 > 0 by decide)
  rw [contains_eq, contains_eq, erase, Array.getElem?_modify]
  by_cases hword : k / 64 = j / 64
  · have hsame : k % 64 = j % 64 ↔ k = j := by omega
    rw [if_pos hword]
    cases s.words[j / 64]? with
    | none => simp [testBit_zero]
    | some w =>
      simp only [Option.map_some, Option.getD_some, testBit_clear w hk hj, hsame]
  · have hne : k ≠ j := fun h => hword (by rw [h])
    simp [hword, hne]

lemma members_insert (s : BitSet) (k : ℕ) : (s.insert k).members = Insert.insert k s.members := by
  ext j
  rw [mem_members, contains_insert, Finset.mem_insert, mem_members, Bool.or_eq_true, decide_eq_true_eq,
    eq_comm]

lemma members_erase (s : BitSet) (k : ℕ) : (s.erase k).members = s.members.erase k := by
  ext j
  rw [mem_members, contains_erase, Finset.mem_erase, mem_members, Bool.and_eq_true, Bool.not_eq_true',
    decide_eq_false_iff_not, ne_comm]

lemma members_clear (s : BitSet) : s.clear.members = ∅ := rfl

lemma run_isSet (s : BitSet) (k : ℕ) : (Action.isSet k).run.run s = (.ok (s.contains k), s) := rfl

lemma run_add (s : BitSet) (k : ℕ) :
    (Action.add k).run.run s = if s.contains k then (.ok false, s) else (.ok true, s.insert k) := by
  rw [Action.add]
  simp only [ExceptT.run_bind, StateT.run_bind, run_isSet]
  cases s.contains k <;> rfl

/-- The operations that change a set. -/
inductive Update where
  | set (k : ℤ)
  | add (k : ℤ)
  | clear (k : ℤ)
  | reset
  deriving DecidableEq, Repr

namespace Update

/-- Do an operation. Only an addition has an answer of its own. -/
def run : Update → Action (Option Bool)
  | .set k => do
    Action.set k
    return none
  | .add k => some <$> Action.add k
  | .clear k => do
    Action.clear k
    return none
  | .reset => do
    Action.reset
    return none

/-- What an operation does to a finite set, and its answer. -/
def onFinset (F : Finset ℕ) : Update → Except Fault (Option Bool) × Finset ℕ
  | .set (.ofNat k) => (.ok none, Insert.insert k F)
  | .add (.ofNat k) => (.ok (some (decide (k ∉ F))), Insert.insert k F)
  | .clear (.ofNat k) => (.ok none, F.erase k)
  | .reset => (.ok none, ∅)
  | .set k | .add k | .clear k => (.error (.member k), F)

lemma run_members (u : Update) (s : BitSet) :
    Prod.map id members (u.run.run.run s) = u.onFinset s.members := by
  cases u with
  | set k =>
    cases k with
    | ofNat n => exact congrArg (Prod.mk _) (members_insert s n)
    | negSucc n => rfl
  | clear k =>
    cases k with
    | ofNat n => exact congrArg (Prod.mk _) (members_erase s n)
    | negSucc n => rfl
  | reset => exact congrArg (Prod.mk _) (members_clear s)
  | add k =>
    cases k with
    | ofNat n =>
      have hrun : (Update.add n).run.run.run s = Prod.map (Except.map some) id ((Action.add n).run.run s) := by
        rw [run, ExceptT.run_map, StateT.run_map]
        rfl
      rw [Int.ofNat_eq_natCast, hrun, run_add]
      by_cases hmem : s.contains n = true
      · have hF : n ∈ s.members := mem_members.mpr hmem
        simp [onFinset, hmem, hF, Except.map]
      · have hF : n ∉ s.members := fun h => hmem (mem_members.mp h)
        simp [onFinset, hmem, hF, Except.map, members_insert]
    | negSucc n => rfl

end Update

/-- The answers of operations that are done one after the other, also behind one that breaks, and the
set after them. -/
def history (s : BitSet) : List Update → List (Except Fault (Option Bool)) × BitSet
  | [] => ([], s)
  | u :: us =>
    let (answer, s') := u.run.run.run s
    let (answers, s'') := history s' us
    (answer :: answers, s'')

/-- The same operations on a finite set. -/
def finsetHistory (F : Finset ℕ) : List Update → List (Except Fault (Option Bool)) × Finset ℕ
  | [] => ([], F)
  | u :: us =>
    let (answer, F') := u.onFinset F
    let (answers, F'') := finsetHistory F' us
    (answer :: answers, F'')

lemma history_members (us : List Update) (s : BitSet) :
    Prod.map id members (history s us) = finsetHistory s.members us := by
  induction us generalizing s with
  | nil => rfl
  | cons u us ih =>
    have hstep := u.run_members s
    rw [history, finsetHistory]
    rcases hrun : u.run.run.run s with ⟨answer, s'⟩
    rw [hrun] at hstep
    simp only [← hstep, Prod.map_apply, ← ih s', Prod.map_fst, Prod.map_snd, id]

/-- A set that was empty behaves like a finite set in every history. The answers of its operations are
those on finite sets, where an operation with a key below zero breaks and changes nothing. Afterwards its
members are the elements, its size is their number, the enumeration calls its function on them in
ascending order until it answers `false`, and a key below zero still leaves the set as it is. -/
theorem history_refines_finset (us : List Update) :
    let s := (history {} us).2
    let F := (finsetHistory ∅ us).2
    (history {} us).1 = (finsetHistory ∅ us).1 ∧
      (∀ k : ℕ, (Action.isSet k).run.run s = (.ok (decide (k ∈ F)), s)) ∧
      s.size = F.card ∧
      (∀ (σ : Type) (f : σ → ℕ → σ × Bool) (st : σ),
        s.range f st = (callUntil f (F.sort (· ≤ ·)) st).1) ∧
      ∀ k < 0, (Action.isSet k).run.run s = (.error (.member k), s) ∧
        ∀ u ∈ [Update.set k, .add k, .clear k], u.run.run.run s = (.error (.member k), s) := by
  intro s F
  obtain ⟨hanswers, hF⟩ : (history {} us).1 = (finsetHistory ∅ us).1 ∧ s.members = F :=
    Prod.ext_iff.mp (history_members us {})
  refine ⟨hanswers, fun k => ?_, ?_, fun σ f st => ?_, fun k hk => ?_⟩
  · rw [run_isSet, ← hF]
    simp only [mem_members, Bool.decide_eq_true]
  · rw [size_eq_card, hF]
  · rw [range_eq, hF]
  · obtain ⟨n, rfl⟩ := Int.eq_negSucc_of_lt_zero hk
    refine ⟨rfl, fun u hu => ?_⟩
    simp only [List.mem_cons, List.not_mem_nil, or_false] at hu
    rcases hu with rfl | rfl | rfl <;> rfl

end Accumulator.BitSet
