import Accumulator.Word

/-!
# What a run acts on

Programs are given a meaning apart from any machine: every variable is an object of its own with
numbered cells, input is read from a list and output is collected. A run either ends or stops for a
reason, and keeps what it has done until then.
-/

namespace Accumulator

/-- A variable as an object: variable number `var` of function number `func`. -/
structure Object where
  func : Nat
  var : Nat
  deriving DecidableEq, Repr

structure Cell where
  object : Object
  offset : Nat := 0
  deriving DecidableEq, Repr

/-- What the cells hold, the input that was not read, and the output. -/
structure World (ν : Type) where
  cells : Cell → ν
  input : List UInt64
  output : Array UInt64 := #[]

namespace World

def start {ν : Type} (v : ν) (input : List UInt64) : World ν :=
  { cells := fun _ => v, input := input }

def write {ν : Type} (w : World ν) (c : Cell) (v : ν) : World ν :=
  { w with cells := fun d => if d = c then v else w.cells d }

end World

inductive Interrupt where
  /-- A read when the input is used up. -/
  | noInput
  /-- An index that is not one of its array. -/
  | outside (cell : Cell)
  /-- A division that has no answer. -/
  | division (x y : UInt64)
  /-- The run is not over within its depth. -/
  | unfinished
  /-- A part of the program that has no meaning. -/
  | senseless
  deriving DecidableEq, Repr

abbrev Exec (σ : Type) := ExceptT Interrupt (StateM σ)

namespace Exec

def required {σ α : Type} : Option α → Exec σ α
  | some x => pure x
  | none => throw .senseless

def divide {σ : Type} (d : Word.Division) (x y : UInt64) : Exec σ (UInt64 × UInt64) :=
  match d x y with
  | some r => pure r
  | none => throw (.division x y)

end Exec

end Accumulator
