import Accumulator.Fault

/-!
# Blanks and comments

A set of blank characters is a mask over the character codes below 64. Between tokens, blanks are
skipped together with comments, which run from a number sign to the end of the line.
-/

namespace Accumulator.Listing

/-- A set of blank characters: bit `k` stands for the character with code `k`. -/
structure Blanks where
  mask : UInt64
  deriving DecidableEq, Repr

namespace Blanks

def isBlank (s : Blanks) (c : UInt8) : Bool :=
  c < 64 && s.mask &&& (1 <<< c.toUInt64) != 0

def insert (s : Blanks) (c : UInt8) : Blanks := ⟨s.mask ||| 1 <<< c.toUInt64⟩

/-- The set of the given characters. Codes from 64 on do not fit the mask. -/
def ofList? (l : List UInt8) : Except Fault Blanks :=
  l.foldlM (fun s c => if c < 64 then .ok (s.insert c) else .error .blankCode) ⟨0⟩

def inLine : Blanks := (Blanks.mk 0).insert 32 |>.insert 9

def all : Blanks := inLine.insert 13 |>.insert 10

/-- How many bytes of blanks and comments stand at the front. A comment's line feed belongs to it
only if line feeds are blanks. -/
def skip (s : Blanks) (comment : Bool) : List UInt8 → Nat
  | [] => 0
  | c :: rest =>
    if comment && c != 10 then skip s true rest + 1
    else if s.isBlank c then skip s false rest + 1
    else if c == 35 then skip s true rest + 1
    else 0

end Blanks

end Accumulator.Listing
