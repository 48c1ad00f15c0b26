import Accumulator.Listing.Grammar

/-!
# Reading listings

A listing is a sequence of instructions between blanks and comments. All jumps have to stay inside
the program. A text that is no listing is reported with line and column, both in bytes.
-/

namespace Accumulator.Listing

open Machine

inductive ListingError where
  /-- The text does not fit at the given line and column. -/
  | malformed (line col : Nat) (cause : ParseError)
  /-- Instruction number `index` jumps to an address without an instruction. -/
  | jumpOutOfProgram (index : Nat) (addr : Int)

namespace ListingError

def cause : ListingError → String
  | .malformed _ _ e => e.message
  | .jumpOutOfProgram i addr => s!"instruction {i}: jump out of program: {addr}"

def message : ListingError → String
  | .malformed line col e => s!"{line}:{col}: {e.message}"
  | e => e.cause

end ListingError

def lineCol : List UInt8 → Nat × Nat :=
  List.foldl (fun (line, col) c => if c == 10 then (line + 1, 1) else (line, col + 1)) (1, 1)

/-- Read instructions up to the end. `at_` is the offset of the bytes `s`, which start behind
blanks; each instruction takes a byte at least, so the length of the text bounds their number. -/
def readInstrs (text : List UInt8) : Nat → Nat → List UInt8 → Except ListingError (List Instr)
  | 0, _, _ => .ok []
  | fuel + 1, at_, s =>
    if s.isEmpty then .ok []
    else
      let r := afterBlanks .all Grammar.instruction.label parseInstr s
      match r.answer with
      | .error e =>
        let (line, col) := lineCol (text.take (at_ + r.used))
        .error (.malformed line col e)
      | .ok i =>
        let rest := s.drop r.used
        let gap := Blanks.all.skip false rest
        (readInstrs text fuel (at_ + r.used + gap) (rest.drop gap)).map (i :: ·)

/-- The first jump that leaves a program of `n` instructions. -/
def strayJump? (code : List Instr) : Option (Nat × Int) :=
  code.zipIdx.findSome? fun (i, k) =>
    if i.op.isJump && (i.addr < 0 || i.addr ≥ (code.length : Int)) then some (k, i.addr) else none

def read (text : List UInt8) : Except ListingError (List Instr) := do
  let gap := Blanks.all.skip false text
  let code ← readInstrs text (text.length + 1) gap (text.drop gap)
  match strayJump? code with
  | some (k, addr) => .error (.jumpOutOfProgram k addr)
  | none => .ok code

end Accumulator.Listing
