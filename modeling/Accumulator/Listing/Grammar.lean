import Accumulator.Listing.Blank
import Accumulator.Machine.Instr
import Accumulator.Text.Quoted

/-!
# Parsing by grammar

A small grammar of numbers, mnemonics, registers and instructions with the usual combinators. A
parser looks at the bytes in front of it and answers how many it went over and what it found; on
failure the count tells how far it got, which decides between alternatives.
-/

namespace Accumulator.Listing

open Machine

inductive Grammar where
  | number
  | mnemonic
  | register
  | instruction
  /-- The shape or, if it fails at its first byte, nothing. -/
  | optional (of : Grammar)
  /-- The shapes one after the other. -/
  | all (of : List Grammar)
  /-- The first of the shapes that fits. -/
  | any (of : List Grammar)
  /-- The shape behind blanks and comments. -/
  | spaced (blanks : Blanks) (of : Grammar)
  deriving Inhabited

inductive Value where
  | number (n : Nat)
  | op (op : Op)
  | reg (reg : Reg)
  | nothing
  | list (items : List Value)
  | instr (instr : Instr)
  deriving Inhabited

def Grammar.label : Grammar → String
  | .number => "parse.Num"
  | .mnemonic => "parse.Mnemonic"
  | .register => "parse.Register"
  | .instruction => "parse.Instruction"
  | .optional _ => "parse.Optional"
  | .all _ => "parse.AllOf"
  | .any _ => "parse.AnyOf"
  | .spaced _ _ => "parse.Spacer"

inductive ParseError where
  | numberExpected
  | numberTooBig
  | mnemonicExpected
  | unknownMnemonic (name : String)
  | registerExpected
  | takesNoRegister (op : Op)
  | takesNoAddress (op : Op)
  | argumentExpected (op : Op)
  /-- None of the shapes with these labels fits. -/
  | noneOf (labels : List String)
  /-- A part failed; `item` is its number if it is part of a sequence. -/
  | inside (label : String) (item : Option Nat) (cause : ParseError)
  deriving Repr

def joinLabels : List String → String
  | [] => "<none>"
  | [l] => l
  | l :: rest =>
    let init := rest.dropLast.foldl (fun s x => s ++ ", " ++ x) l
    init ++ " or " ++ rest.getLastD ""

def ParseError.message : ParseError → String
  | .numberExpected => "number expected"
  | .numberTooBig => "number is too big"
  | .mnemonicExpected => "mnemonic expected"
  | .unknownMnemonic name => s!"unknown instruction {Text.quote (Text.bytes name)}"
  | .registerExpected => "register expected"
  | .takesNoRegister op => s!"{op.name} takes no register"
  | .takesNoAddress op => s!"{op.name} takes no address"
  | .argumentExpected op => s!"{op.name}: argument expected"
  | .noneOf labels => s!"expected {joinLabels labels}"
  | .inside label none cause => s!"{label}: {cause.message}"
  | .inside label (some i) cause => s!"{label} ({i}): {cause.message}"

structure Outcome (α : Type) where
  used : Nat
  answer : Except ParseError α

def isDigit (c : UInt8) : Bool := 48 ≤ c && c ≤ 57

def isUpper (c : UInt8) : Bool := 65 ≤ c && c ≤ 90

/-- Letters, digits and the underscore: they may not follow a number or a register. -/
def isWord (c : UInt8) : Bool := (97 ≤ c && c ≤ 122) || isUpper c || isDigit c || c == 95

def maxNumber : Nat := 0x7FFFFFFF

/-- Read digits behind the value `n` of `used` digits before. The count stops at a digit that makes
the number too big. -/
def digits (n used : Nat) : List UInt8 → Outcome Nat
  | [] => ⟨used, .ok n⟩
  | c :: rest =>
    if isDigit c then
      let n' := n * 10 + (c.toNat - 48)
      if n' ≤ maxNumber then digits n' (used + 1) rest else ⟨used, .error .numberTooBig⟩
    else if isWord c && used != 0 then ⟨used, .error .numberExpected⟩
    else ⟨used, .ok n⟩

def parseNumber (s : List UInt8) : Outcome Nat :=
  let r := digits 0 0 s
  match r.answer with
  | .ok n => if r.used == 0 then ⟨0, .error .numberExpected⟩ else ⟨r.used, .ok n⟩
  | .error e => ⟨r.used, .error e⟩

def parseMnemonic (s : List UInt8) : Outcome Op :=
  let word := s.takeWhile isUpper
  if word.isEmpty then ⟨0, .error .mnemonicExpected⟩
  else
    let name := String.ofList (word.map fun c => Char.ofNat c.toNat)
    match Op.ofName? name with
    | some op => ⟨word.length, .ok op⟩
    | none => ⟨0, .error (.unknownMnemonic name)⟩

def parseRegister : List UInt8 → Outcome Reg
  | [] => ⟨0, .error .registerExpected⟩
  | c :: rest =>
    if (rest.head?.map isWord).getD false then ⟨0, .error .registerExpected⟩
    else
      match Reg.ofName? (String.ofList [Char.ofNat c.toNat]) with
      | some r => ⟨1, .ok r⟩
      | none => ⟨0, .error .registerExpected⟩

/-- The first of several parsers that succeeds. If all fail, the first that got past the first byte
tells why, and otherwise none of them fits. -/
def firstOf {α : Type} (labels : List String) (failed : Option (Outcome α)) :
    List (String × Outcome α) → Outcome α
  | [] => failed.getD ⟨0, .error (.noneOf labels)⟩
  | (label, r) :: rest =>
    match r.answer with
    | .ok _ => r
    | .error e =>
      if r.used == 0 then firstOf labels failed rest
      else firstOf labels (failed.or (some ⟨r.used, .error (.inside label none e)⟩)) rest

/-- A parser behind blanks. The blanks do not count if it fails at its first byte. -/
def afterBlanks {α : Type} (blanks : Blanks) (label : String)
    (parse : List UInt8 → Outcome α) (s : List UInt8) : Outcome α :=
  let gap := blanks.skip false s
  let r := parse (s.drop gap)
  match r.answer with
  | .ok _ => ⟨gap + r.used, r.answer⟩
  | .error e => ⟨if r.used == 0 then 0 else gap + r.used, .error (.inside label none e)⟩

/-- A failure at the first byte counts as absence. -/
def orNothing {α : Type} (r : Outcome α) : Outcome (Option α) :=
  match r.answer with
  | .ok v => ⟨r.used, .ok (some v)⟩
  | .error e => if r.used == 0 then ⟨0, .ok none⟩ else ⟨r.used, .error e⟩

inductive Argument where
  | reg (reg : Reg)
  | address (addr : Nat)
  deriving DecidableEq, Repr

def parseArgument (s : List UInt8) : Outcome Argument :=
  let reg := parseRegister s
  let num := parseNumber s
  let labels := [Grammar.register.label, Grammar.number.label]
  firstOf labels none
    [(Grammar.register.label, ⟨reg.used, reg.answer.map .reg⟩),
      (Grammar.number.label, ⟨num.used, num.answer.map .address⟩)]

/-- Put an operation and its argument together. A wrong argument is reported at the instruction's
start, a missing one behind it. -/
def assemble (op : Op) (arg : Option Argument) (used : Nat) : Outcome Instr :=
  match arg with
  | some (.reg r) =>
    if op.hasReg then ⟨used, .ok { op := op, reg := r }⟩ else ⟨0, .error (.takesNoRegister op)⟩
  | some (.address n) =>
    if op.isJump then ⟨used, .ok { op := op, addr := n }⟩ else ⟨0, .error (.takesNoAddress op)⟩
  | none =>
    if op.hasReg || op.isJump then ⟨used, .error (.argumentExpected op)⟩
    else ⟨used, .ok { op := op }⟩

def parseInstr (s : List UInt8) : Outcome Instr :=
  let m := parseMnemonic s
  match m.answer with
  | .error e => ⟨m.used, .error (.inside Grammar.mnemonic.label (some 0) e)⟩
  | .ok op =>
    let a := orNothing
      (afterBlanks .inLine (Grammar.any []).label parseArgument (s.drop m.used))
    match a.answer with
    | .error e =>
      ⟨m.used + a.used, .error (.inside (Grammar.optional .number).label (some 1) e)⟩
    | .ok arg => assemble op arg (m.used + a.used)

mutual

def Grammar.parse : Grammar → List UInt8 → Outcome Value
  | .number, s => let r := parseNumber s; ⟨r.used, r.answer.map .number⟩
  | .mnemonic, s => let r := parseMnemonic s; ⟨r.used, r.answer.map .op⟩
  | .register, s => let r := parseRegister s; ⟨r.used, r.answer.map .reg⟩
  | .instruction, s => let r := parseInstr s; ⟨r.used, r.answer.map .instr⟩
  | .optional g, s => let r := orNothing (g.parse s); ⟨r.used, r.answer.map (·.getD .nothing)⟩
  | .all gs, s => let r := Grammar.parseAll 0 gs s; ⟨r.used, r.answer.map .list⟩
  | .any gs, s => firstOf (gs.map Grammar.label) none (Grammar.parseEach gs s)
  | .spaced blanks g, s => afterBlanks blanks g.label g.parse s

def Grammar.parseAll (i : Nat) : List Grammar → List UInt8 → Outcome (List Value)
  | [], _ => ⟨0, .ok []⟩
  | g :: gs, s =>
    let r := g.parse s
    match r.answer with
    | .error e => ⟨r.used, .error (.inside g.label (some i) e)⟩
    | .ok v =>
      let rs := Grammar.parseAll (i + 1) gs (s.drop r.used)
      ⟨r.used + rs.used, rs.answer.map (v :: ·)⟩

def Grammar.parseEach : List Grammar → List UInt8 → List (String × Outcome Value)
  | [], _ => []
  | g :: gs, s => (g.label, g.parse s) :: Grammar.parseEach gs s

end

end Accumulator.Listing
