import Accumulator.Fault
import Accumulator.Flow.Basic
import Accumulator.Machine.Instr

/-!
# Recipes

Straight pieces of machine code for constants, arithmetic and comparisons. Operands of binary
operations are in registers `a` and `b`, and the result is left in `a`. Jumps inside a recipe are
relative to the jump itself, so a recipe can stand anywhere.
-/

namespace Accumulator.Layout

open Machine (Reg)

inductive Target where
  | nowhere
  /-- An instruction of the same recipe, by its distance. -/
  | within (distance : Int)
  /-- The start of a block of the same function. -/
  | block (b : Flow.BlockId)
  /-- The start of a function. -/
  | func (callee : Int)
  deriving DecidableEq, Repr, Inhabited

structure Item where
  op : Machine.Op
  reg : Reg := .a
  target : Target := .nowhere
  deriving DecidableEq, Repr, Inhabited

/-- Increments and shifts that build a number in a register that holds zero, from the most
significant bit on. -/
def bitsOf (r : Reg) (n : Nat) : List Item :=
  if h : n = 0 then []
  else
    (if n / 2 = 0 then [] else bitsOf r (n / 2) ++ [{ op := .shl, reg := r }]) ++
      (if n % 2 = 1 then [{ op := .inc, reg := r }] else [])
  termination_by n
  decreasing_by omega

def constant (k : UInt64) (r : Reg) : List Item :=
  { op := .rst, reg := r } :: bitsOf r k.toNat

/-- Halve `a` and double `b`, and add `b` to `c` whenever `a` is odd. -/
def mul : List Item :=
  [{ op := .rst, reg := .c },
    { op := .jzero, target := .within 14 },
    { op := .put, reg := .d },
    { op := .shr, reg := .d },
    { op := .shl, reg := .d },
    { op := .put, reg := .e },
    { op := .sub, reg := .d },
    { op := .jzero, target := .within 4 },
    { op := .get, reg := .c },
    { op := .add, reg := .b },
    { op := .put, reg := .c },
    { op := .get, reg := .e },
    { op := .shr, reg := .a },
    { op := .shl, reg := .b },
    { op := .jump, target := .within (-13) },
    { op := .get, reg := .c }]

/-- Divide `a` by `b`. The quotient grows in `c` and the remainder is left in `e`; the result is
the register given. Division by zero leaves zero in both. -/
def divide (result : Reg) : List Item :=
  [{ op := .rst, reg := .c },
    { op := .rst, reg := .e },
    { op := .put, reg := .f },
    { op := .get, reg := .b },
    { op := .jzero, target := .within 24 },
    { op := .get, reg := .f },
    -- what is left of the dividend is in a
    { op := .put, reg := .e },
    { op := .get, reg := .b },
    { op := .sub, reg := .e },
    { op := .jpos, target := .within 19 },
    -- d becomes the first multiple of b by a power of two that exceeds e, and f the power
    { op := .rst, reg := .f },
    { op := .inc, reg := .f },
    { op := .get, reg := .b },
    { op := .put, reg := .d },
    { op := .get, reg := .d },
    { op := .sub, reg := .e },
    { op := .jpos, target := .within 4 },
    { op := .shl, reg := .f },
    { op := .shl, reg := .d },
    { op := .jump, target := .within (-5) },
    -- one step back, and the multiple is taken off
    { op := .shr, reg := .f },
    { op := .shr, reg := .d },
    { op := .get, reg := .c },
    { op := .add, reg := .f },
    { op := .put, reg := .c },
    { op := .get, reg := .e },
    { op := .sub, reg := .d },
    { op := .jump, target := .within (-21) },
    { op := .get, reg := result }]

def differ : List Item :=
  [{ op := .put, reg := .e },
    { op := .sub, reg := .b },
    { op := .jpos, target := .within 3 },
    { op := .get, reg := .b },
    { op := .sub, reg := .e },
    { op := .get, reg := .a }]

/-- The recipe of an operation, if the machine has one. A comparison leaves a positive number
exactly if it holds. -/
def arithmetic : Flow.Op → Except Fault (List Item)
  | .add => .ok [{ op := .add, reg := .b }]
  | .sub => .ok [{ op := .sub, reg := .b }]
  | .shl => .ok [{ op := .shl, reg := .a }]
  | .shr => .ok [{ op := .shr, reg := .a }]
  | .mul => .ok mul
  | .div => .ok (divide .c)
  | .mod => .ok (divide .e)
  | .ne => .ok differ
  | .gt => .ok [{ op := .sub, reg := .b }]
  | .lt => .ok [{ op := .put, reg := .e }, { op := .get, reg := .b }, { op := .sub, reg := .e }]
  | op => .error (.operation op.code)

end Accumulator.Layout
