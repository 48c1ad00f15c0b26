import Accumulator.Machine.State

/-!
# Running the machine

`step` carries out one instruction, `runFor` a given number of them. Both keep the state that an
unfinished run stopped in, so a run that met its limit can be taken up again.
-/

namespace Accumulator.Machine

/-- Subtraction that stops at zero. -/
def monus (x y : UInt64) : UInt64 := if x < y then 0 else x - y

inductive Stop where
  /-- The program counter is not the number of an instruction. -/
  | outOfProgram
  | badRegister (reg : Reg)
  /-- A read when the input is used up. -/
  | noInput
  | stepLimit
  /-- The operation is not one of the machine's. -/
  | badOperation (op : Op)
  deriving DecidableEq, Repr

namespace Stop

def message : Stop → String
  | .outOfProgram => "jump out of program"
  | .badRegister r => s!"bad register: {r.name}"
  | .noInput => "no input left"
  | .stepLimit => "step limit reached"
  | .badOperation op => s!"bad instruction: {op.name}"

end Stop

def fetch? (code : Array Instr) (pc : Int) : Option Instr :=
  match pc with
  | .ofNat n => code[n]?
  | .negSucc _ => none

def State.advance (s : State) (cost : Nat) : State :=
  { s with steps := s.steps + 1, cost := s.cost + .ofNat cost, pc := s.pc + 1 }

/-- What an instruction does once it has been counted: `s` already points behind it. -/
def execute (i : Instr) (s : State) : State × Option Stop :=
  let acc := s.regs.a
  let r := s.regs.get i.reg
  match i.op with
  | .read =>
    match s.input with
    | [] => (s, some .noInput)
    | v :: rest => ({ s.setReg .a v with input := rest }, none)
  | .write => ({ s with output := s.output.push acc }, none)
  | .load => (s.setReg .a (s.readCell r), none)
  | .store => (s.writeCell r acc, none)
  | .add => (s.setReg .a (acc + r), none)
  | .sub => (s.setReg .a (monus acc r), none)
  | .get => (s.setReg .a r, none)
  | .put => (s.setReg i.reg acc, none)
  | .rst => (s.setReg i.reg 0, none)
  | .inc => (s.setReg i.reg (r + 1), none)
  | .dec => (s.setReg i.reg (monus r 1), none)
  | .shl => (s.setReg i.reg (r <<< 1), none)
  | .shr => (s.setReg i.reg (r >>> 1), none)
  | .jump => ({ s with pc := i.addr }, none)
  | .jpos => (if acc > 0 then { s with pc := i.addr } else s, none)
  | .jzero => (if acc = 0 then { s with pc := i.addr } else s, none)
  | .strk => (s.setReg i.reg (UInt64.ofInt (s.pc - 1)), none)
  | .jumpr => ({ s with pc := r.toInt64.toInt }, none)
  | .halt => ({ s with halted := true }, none)
  | .unknown n => (s, some (.badOperation (.unknown n)))

/-- Carry out one instruction. A halted machine stays as it is. -/
def step (code : Array Instr) (s : State) : State × Option Stop :=
  if s.halted then (s, none)
  else
    match fetch? code s.pc with
    | none => (s, some .outOfProgram)
    | some i =>
      if i.op.hasReg && !i.reg.isKnown then (s, some (.badRegister i.reg))
      else
        match i.op.cost? with
        | none => (s, some (.badOperation i.op))
        | some c => execute i (s.advance c)

def runFor (code : Array Instr) : Nat → State → State × Option Stop
  | 0, s => if s.halted then (s, none) else (s, some .stepLimit)
  | n + 1, s =>
    if s.halted then (s, none)
    else
      match step code s with
      | (s', none) => runFor code n s'
      | r => r

/-- Run until the machine has made `limit` steps altogether, counting those of earlier runs. -/
def runTo (code : Array Instr) (limit : Nat) (s : State) : State × Option Stop :=
  runFor code (limit - s.steps : Int).toNat s

end Accumulator.Machine
