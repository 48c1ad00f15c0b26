/-!
# Texts as bytes

Names and all that is written are bytes, which need not be UTF-8. Where characters are needed, a
byte that starts none stands alone.
-/

namespace Accumulator

abbrev Bytes := List UInt8

namespace Text

def bytes (s : String) : Bytes := s.toList.flatMap String.utf8EncodeChar

instance : Coe String Bytes := ⟨bytes⟩

/-- The number of bytes behind the first one of a character, and the bits that the first one
gives. -/
def lead? (b : UInt8) : Option (Nat × Nat) :=
  let n := b.toNat
  if n < 0x80 then some (0, n)
  else if n < 0xC0 then none
  else if n < 0xE0 then some (1, n - 0xC0)
  else if n < 0xF0 then some (2, n - 0xE0)
  else if n < 0xF8 then some (3, n - 0xF0)
  else none

def leastCode : Nat → Nat
  | 0 => 0
  | 1 => 0x80
  | 2 => 0x800
  | _ => 0x10000

/-- The character that bytes spell, given the number of bytes behind the first one and its bits. -/
def spelled? (width bits : Nat) (tail : Bytes) : Option Char :=
  let code := tail.foldl (fun n b => n * 64 + b.toNat % 64) bits
  if tail.length = width ∧ (tail.all fun b => 0x80 ≤ b && b < 0xC0) ∧ leastCode width ≤ code ∧
      code.isValidChar then some (Char.ofNat code)
  else none

def front? : Bytes → Option (Char × Nat)
  | [] => none
  | b :: rest => do
    let (width, bits) ← lead? b
    return (← spelled? width bits (rest.take width), width)

/-- The characters of a text, and the bytes in it that start none. -/
def runes : Bytes → List (UInt8 ⊕ Char)
  | [] => []
  | b :: rest =>
    match front? (b :: rest) with
    | some (c, width) => .inr c :: runes (rest.drop width)
    | none => .inl b :: runes rest
  termination_by bs => bs.length

/-- A text as characters. A byte that starts none is replaced. -/
def lossy (bs : Bytes) : String :=
  String.ofList ((runes bs).map (Sum.elim (fun _ => Char.ofNat 0xFFFD) id))

end Text

end Accumulator
