import Accumulator.Machine.Instr
import Std.Data.TreeMap

/-!
# Machine states

A state holds the eight registers, the memory cells written so far, the program counter, what is
left of the input, what was output, and the counters of steps and cycles. Words are 64 bits wide, and
so are the counters: they wrap around like other signed numbers of the machine's width.
-/

namespace Accumulator.Machine

structure Registers where
  a : UInt64 := 0
  b : UInt64 := 0
  c : UInt64 := 0
  d : UInt64 := 0
  e : UInt64 := 0
  f : UInt64 := 0
  g : UInt64 := 0
  h : UInt64 := 0
  deriving DecidableEq, Repr, Inhabited

namespace Registers

/-- The word in a register. There is nothing in an unknown one. -/
def get (s : Registers) : Reg → UInt64
  | .a => s.a
  | .b => s.b
  | .c => s.c
  | .d => s.d
  | .e => s.e
  | .f => s.f
  | .g => s.g
  | .h => s.h
  | .unknown _ => 0

def set (s : Registers) (r : Reg) (v : UInt64) : Registers :=
  match r with
  | .a => { s with a := v }
  | .b => { s with b := v }
  | .c => { s with c := v }
  | .d => { s with d := v }
  | .e => { s with e := v }
  | .f => { s with f := v }
  | .g => { s with g := v }
  | .h => { s with h := v }
  | .unknown _ => s

def toList (s : Registers) : List UInt64 := [s.a, s.b, s.c, s.d, s.e, s.f, s.g, s.h]

end Registers

/-- The cells written so far. A cell that was never written holds zero. -/
abbrev Memory := Std.TreeMap UInt64 UInt64

instance coeInt : Coe Int64 Int := ⟨Int64.toInt⟩

/-- A machine between two instructions. -/
structure State where
  regs : Registers := {}
  memory : Memory := ∅
  pc : Int := 0
  input : List UInt64 := []
  output : Array UInt64 := #[]
  steps : Int64 := 0
  cost : Int64 := 0
  halted : Bool := false

namespace State

def start (input : List UInt64) : State := { input := input }

def readCell (s : State) (addr : UInt64) : UInt64 := s.memory.getD addr 0

def writeCell (s : State) (addr v : UInt64) : State :=
  { s with memory := s.memory.insert addr v }

def setReg (s : State) (r : Reg) (v : UInt64) : State := { s with regs := s.regs.set r v }

end State

end Accumulator.Machine
