/-!
# Machine instructions

The machine has eight registers and nineteen operations. An instruction is an operation with a
register or an address; the part that its operation does not use is ignored. Operation and register
codes outside the known ranges are kept as they are, because programs may be given as bare numbers.
-/

namespace Accumulator.Machine

/-- The operations, in the order of their codes. -/
inductive Op where
  | read
  | write
  | load
  | store
  | add
  | sub
  | get
  | put
  | rst
  | inc
  | dec
  | shl
  | shr
  | jump
  | jpos
  | jzero
  | strk
  | jumpr
  | halt
  | unknown (code : Int)
  deriving DecidableEq, Repr, Inhabited

namespace Op

def all : List Op :=
  [.read, .write, .load, .store, .add, .sub, .get, .put, .rst, .inc, .dec, .shl, .shr,
    .jump, .jpos, .jzero, .strk, .jumpr, .halt]

def code : Op → Int
  | .read => 0
  | .write => 1
  | .load => 2
  | .store => 3
  | .add => 4
  | .sub => 5
  | .get => 6
  | .put => 7
  | .rst => 8
  | .inc => 9
  | .dec => 10
  | .shl => 11
  | .shr => 12
  | .jump => 13
  | .jpos => 14
  | .jzero => 15
  | .strk => 16
  | .jumpr => 17
  | .halt => 18
  | .unknown n => n

def ofCode (n : Int) : Op := (all.find? (·.code == n)).getD (.unknown n)

def name : Op → String
  | .read => "READ"
  | .write => "WRITE"
  | .load => "LOAD"
  | .store => "STORE"
  | .add => "ADD"
  | .sub => "SUB"
  | .get => "GET"
  | .put => "PUT"
  | .rst => "RST"
  | .inc => "INC"
  | .dec => "DEC"
  | .shl => "SHL"
  | .shr => "SHR"
  | .jump => "JUMP"
  | .jpos => "JPOS"
  | .jzero => "JZERO"
  | .strk => "STRK"
  | .jumpr => "JUMPR"
  | .halt => "HALT"
  | .unknown n => s!"op({n})"

def ofName? (s : String) : Option Op := all.find? (·.name == s)

def cost? : Op → Option Nat
  | .read | .write => some 100
  | .load | .store => some 50
  | .add | .sub => some 10
  | .halt => some 0
  | .unknown _ => none
  | _ => some 1

def isJump : Op → Bool
  | .jump | .jpos | .jzero => true
  | _ => false

def hasReg : Op → Bool
  | .read | .write | .halt | .jump | .jpos | .jzero => false
  | _ => true

end Op

/-- The registers, in the order of their codes. The first is the accumulator. -/
inductive Reg where
  | a
  | b
  | c
  | d
  | e
  | f
  | g
  | h
  | unknown (code : Int)
  deriving DecidableEq, Repr, Inhabited

namespace Reg

def all : List Reg := [.a, .b, .c, .d, .e, .f, .g, .h]

def code : Reg → Int
  | .a => 0
  | .b => 1
  | .c => 2
  | .d => 3
  | .e => 4
  | .f => 5
  | .g => 6
  | .h => 7
  | .unknown n => n

def ofCode (n : Int) : Reg := (all.find? (·.code == n)).getD (.unknown n)

def name : Reg → String
  | .a => "a"
  | .b => "b"
  | .c => "c"
  | .d => "d"
  | .e => "e"
  | .f => "f"
  | .g => "g"
  | .h => "h"
  | .unknown n => s!"reg({n})"

def ofName? (s : String) : Option Reg := all.find? (·.name == s)

def isKnown : Reg → Bool
  | .unknown _ => false
  | _ => true

end Reg

/-- One instruction. Jumps use `addr`, most others `reg`. -/
structure Instr where
  op : Op
  reg : Reg := .a
  addr : Int := 0
  deriving DecidableEq, Repr, Inhabited

namespace Instr

def render (i : Instr) : String :=
  if i.op.isJump then s!"{i.op.name} {i.addr}"
  else if i.op.hasReg then s!"{i.op.name} {i.reg.name}"
  else i.op.name

end Instr

end Accumulator.Machine
