import Accumulator.Text.Bytes

/-!
# Decimal numerals

Reading a text as a 64-bit natural number: decimal digits only, no sign, no separators.
-/

namespace Accumulator.Text

inductive NumeralError where
  | notNumeral
  | tooLarge
  deriving DecidableEq, Repr

def digit? (b : UInt8) : Option Nat :=
  if 48 ≤ b ∧ b ≤ 57 then some (b.toNat - 48) else none

/-- Read on from the value `n` of the digits before. The first fault from the left counts. -/
def readDigits (n : Nat) : Bytes → Except NumeralError Nat
  | [] => .ok n
  | b :: rest =>
    match digit? b with
    | none => .error .notNumeral
    | some d => if n * 10 + d < 2 ^ 64 then readDigits (n * 10 + d) rest else .error .tooLarge

def readWord (s : Bytes) : Except NumeralError UInt64 :=
  if s.isEmpty then .error .notNumeral
  else (readDigits 0 s).map UInt64.ofNat

end Accumulator.Text
