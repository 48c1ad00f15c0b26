import Accumulator.Text.Bytes

/-!
# Faults

A fault is a broken precondition: the operation that meets one gives no result at all. Faults are
kept apart from errors, which are ordinary answers about a faulty input.
-/

namespace Accumulator

inductive NodeKind where
  | nothing
  | number
  | ident
  | index
  | binary
  | proc
  | param
  | localVar
  deriving DecidableEq, Repr

/-- The causes of faults. -/
inductive Fault where
  /-- An index lies outside its table, or a needed record is absent. -/
  | outOfRange
  /-- A flow instruction is not in the state that the operation asks for. -/
  | instruction (id : Int)
  /-- A block that cannot be visited, or that has no code. -/
  | block (id : Int)
  /-- An arithmetic operation that has no machine code. -/
  | operation (code : Int)
  /-- A called function that has no code. -/
  | uncoded (name : Bytes)
  /-- A variable stands where an instruction is needed. -/
  | misplacedVariable
  /-- A call whose arguments do not match the parameters. -/
  | argumentCount
  /-- A set member below zero. -/
  | member (key : Int)
  /-- A blank character whose code is above the supported range. -/
  | blankCode
  /-- A parsed value that its reader does not expect. -/
  | shape
  /-- A tree node that stands where it has no meaning. -/
  | node (kind : NodeKind)
  deriving DecidableEq, Repr

theorem bind_eq_ok {ε α β : Type} {x : Except ε α} {f : α → Except ε β} {b : β} :
    x >>= f = .ok b ↔ ∃ a, x = .ok a ∧ f a = .ok b := by
  cases x with
  | error e => simp [bind, Except.bind]
  | ok a => simp [bind, Except.bind]

end Accumulator
