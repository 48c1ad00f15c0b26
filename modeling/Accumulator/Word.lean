/-!
# Word arithmetic

Values are natural numbers below 2^64. Sums and products are taken modulo 2^64, a difference stops
at zero, and quotients and remainders by zero are zero.
-/

namespace Accumulator.Word

def add (x y : UInt64) : UInt64 := .ofNat (x.toNat + y.toNat)

def sub (x y : UInt64) : UInt64 := .ofNat (x.toNat - y.toNat)

def mul (x y : UInt64) : UInt64 := .ofNat (x.toNat * y.toNat)

def div (x y : UInt64) : UInt64 := .ofNat (x.toNat / y.toNat)

def mod (x y : UInt64) : UInt64 := if y = 0 then 0 else .ofNat (x.toNat % y.toNat)

/-- The value of a comparison: positive exactly if it holds. -/
def ofBool (holds : Bool) : UInt64 := if holds then 1 else 0

/-- A way to divide: the quotient and the remainder of two words, if there is an answer. -/
abbrev Division := UInt64 → UInt64 → Option (UInt64 × UInt64)

/-- Division that answers where the divisor is zero or the dividend is below 2^63. -/
def exact : Division := fun x y =>
  if y = 0 ∨ x < 0x8000000000000000 then some (div x y, mod x y) else none

end Accumulator.Word
