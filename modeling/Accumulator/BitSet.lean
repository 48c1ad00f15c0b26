import Accumulator.Fault

/-!
# Bit sets

A growable set of small natural numbers, one bit each in a list of 64-bit words. A set that was
never written to is told apart from one that was emptied again: it has no storage yet.
-/

namespace Accumulator

/-- A finite set of natural numbers. Bit `k % 64` of word `k / 64` says whether `k` is a member. -/
structure BitSet where
  words : Array UInt64 := #[]
  /-- Whether the set was ever written to. -/
  stored : Bool := false
  deriving DecidableEq, Repr, Inhabited

namespace BitSet

def bit (j : Nat) : UInt64 := 1 <<< UInt64.ofNat j

def testBit (w : UInt64) (j : Nat) : Bool := w &&& bit j != 0

def contains (s : BitSet) (k : Nat) : Bool :=
  match s.words[k / 64]? with
  | some w => testBit w (k % 64)
  | none => false

def grow (words : Array UInt64) (i : Nat) : Array UInt64 :=
  words ++ Array.replicate (i + 1 - words.size) 0

def insert (s : BitSet) (k : Nat) : BitSet :=
  { words := (grow s.words (k / 64)).modify (k / 64) (· ||| bit (k % 64)), stored := true }

def erase (s : BitSet) (k : Nat) : BitSet :=
  { s with words := s.words.modify (k / 64) (· &&& ~~~bit (k % 64)) }

def trailingZeros (w : UInt64) : Nat := (List.range 64).findIdx (testBit w)

theorem toNat_bit {j : Nat} (hj : j < 64) : (bit j).toNat = 1 <<< j := by
  have h64 : (UInt64.ofNat j).toNat = j := by simp; omega
  rw [bit, UInt64.toNat_shiftLeft, h64, Nat.mod_eq_of_lt hj]
  refine Nat.mod_eq_of_lt ?_
  rw [UInt64.toNat_one, Nat.one_shiftLeft]
  exact Nat.pow_lt_pow_right (by decide) hj

theorem testBit_eq (w : UInt64) {j : Nat} (hj : j < 64) : testBit w j = w.toNat.testBit j := by
  rw [testBit, Bool.eq_iff_iff, bne_iff_ne, ne_eq, ← UInt64.toNat_inj, UInt64.toNat_and, toNat_bit hj,
    Nat.one_shiftLeft]
  constructor
  · intro h
    obtain ⟨i, hi⟩ := Nat.exists_testBit_of_ne_zero h
    rw [Nat.testBit_and, Nat.testBit_two_pow, Bool.and_eq_true, decide_eq_true_eq] at hi
    rw [hi.2, hi.1]
  · intro h hzero
    have hbit : (w.toNat &&& 2 ^ j).testBit j = true := by simp [Nat.testBit_and, h]
    simp [hzero] at hbit

theorem trailingZeros_lt {w : UInt64} (hw : w ≠ 0) : trailingZeros w < 64 := by
  obtain ⟨j, hj⟩ := Nat.exists_testBit_of_ne_zero (fun h => hw (UInt64.toNat_inj.mp h))
  have hlt : j < 64 := Nat.lt_of_not_le fun hle => by
    have hbound := Nat.lt_of_lt_of_le w.toNat_lt (Nat.pow_le_pow_right (by decide) hle)
    simp [Nat.testBit_lt_two_pow hbound] at hj
  have hmem : ∃ x ∈ List.range 64, testBit w x = true :=
    ⟨j, List.mem_range.mpr hlt, by rw [testBit_eq w hlt, hj]⟩
  simpa [trailingZeros] using List.findIdx_lt_length_of_exists hmem

theorem testBit_trailingZeros {w : UInt64} (hw : w ≠ 0) : testBit w (trailingZeros w) = true := by
  have hlt : (List.range 64).findIdx (testBit w) < (List.range 64).length := by
    rw [List.length_range]
    exact trailingZeros_lt hw
  have hfind := List.findIdx_getElem (w := hlt)
  rwa [List.getElem_range] at hfind

theorem toNat_clear_lt {w : UInt64} {j : Nat} (hj : testBit w j = true) :
    (w &&& ~~~bit j).toNat < w.toNat := by
  rw [UInt64.toNat_and]
  refine Nat.lt_of_le_of_ne Nat.and_le_left fun h => ?_
  have hclear : w &&& ~~~bit j = w := UInt64.toNat_inj.mp (by rw [UInt64.toNat_and, h])
  have hzero : w &&& bit j = 0 := by
    rw [← hclear, UInt64.and_assoc, UInt64.not_and_self, UInt64.and_zero]
  simp [testBit, hzero] at hj

/-- Call `f` on the members that word number `i` holds, the lowest first, until it answers `false`.
The state and whether to go on. -/
def rangeWord {σ : Type} (f : σ → Nat → σ × Bool) (i : Nat) (w : UInt64) (st : σ) : σ × Bool :=
  if _hw : w = 0 then (st, true)
  else
    let j := trailingZeros w
    match f st (i * 64 + j) with
    | (st, false) => (st, false)
    | (st, true) => rangeWord f i (w &&& ~~~bit j) st
  termination_by w.toNat
  decreasing_by exact toNat_clear_lt (testBit_trailingZeros _hw)

def rangeFrom {σ : Type} (f : σ → Nat → σ × Bool) (i : Nat) : List UInt64 → σ → σ × Bool
  | [], st => (st, true)
  | w :: ws, st =>
    match rangeWord f i w st with
    | (st, false) => (st, false)
    | (st, true) => rangeFrom f (i + 1) ws st

def range {σ : Type} (s : BitSet) (f : σ → Nat → σ × Bool) (st : σ) : σ :=
  (rangeFrom f 0 s.words.toList st).1

def toList (s : BitSet) : List Nat := (s.range (fun l k => (k :: l, true)) []).reverse

def size (s : BitSet) : Nat :=
  s.words.foldl (fun n w => n + ((List.range 64).filter (testBit w)).length) 0

/-- Remove all members. Storage, once there, stays. -/
def clear (s : BitSet) : BitSet := { s with words := #[] }

/-- A member is a natural number; anything below zero is a fault. -/
def member? (k : Int) : Except Fault Nat :=
  match k with
  | .ofNat n => .ok n
  | .negSucc _ => .error (.member k)

/-- A computation over one set. A fault leaves the set as it was changed until then. -/
abbrev Action (α : Type) := ExceptT Fault (StateM BitSet) α

namespace Action

def member (k : Int) : Action Nat := ExceptT.mk (pure (member? k))

def isSet (k : Int) : Action Bool := do
  let n ← member k
  return (← get).contains n

def set (k : Int) : Action Unit := do
  let n ← member k
  modify (·.insert n)

def add (k : Int) : Action Bool := do
  if ← isSet k then return false
  set k
  return true

def clear (k : Int) : Action Unit := do
  let n ← member k
  modify (·.erase n)

def reset : Action Unit := modify BitSet.clear

end Action

end BitSet

end Accumulator
