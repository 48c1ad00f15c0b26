import Accumulator.Flow.Basic

/-!
# Frames

Every variable of every function has cells of its own for the whole run. Addresses are given out in
order, and wrap around like all signed machine integers.
-/

namespace Accumulator.Layout

/-- A range of memory cells. An indirect one holds the address of its value. -/
structure Cells where
  name : Bytes
  addr : Int64
  size : Int
  indirect : Bool := false
  deriving DecidableEq, Repr, Inhabited

/-- Give out the next cells, at least one, and say where the following ones start. -/
def allocate (next : Int64) (name : Bytes) (size : Int) (indirect : Bool) : Cells × Int64 :=
  let size := if size < 1 then 1 else size
  ({ name := name, addr := next, size := size, indirect := indirect }, next + Int64.ofInt size)

/-- The cells of a function's variables. -/
abbrev Frame := List (Flow.Id × Cells)

def buildFrame (f : Flow.Func) (next : Int64) : List Flow.Id → Except Fault (Frame × Int64)
  | [] => .ok ([], next)
  | id :: rest => do
    match ← f.var? id with
    | none => throw (.instruction id)
    | some v =>
      let (cells, next) := allocate next v.name v.size v.byRef
      let (frame, next) ← buildFrame f next rest
      return ((id, cells) :: frame, next)

abbrev Frames := List (Nat × Frame)

/-- The frame of a function: the last one built for it. -/
def Frames.frame (fs : Frames) (func : Nat) : Frame := (List.lookup func fs.reverse).getD []

def Frames.cells (fs : Frames) (func : Nat) (id : Flow.Id) : Except Fault Cells :=
  match List.lookup id (fs.frame func).reverse with
  | some c => .ok c
  | none => .error (.instruction id)

/-- Build the frames of functions: first the local variables and then the parameters of each. -/
def buildFrames (p : Flow.Program) (next : Int64) : List Nat → Except Fault (Frames × Int64)
  | [] => .ok ([], next)
  | k :: rest => do
    let f ← Flow.lookup p.funcs k
    let (frame, next) ← buildFrame f next (f.locals ++ f.params)
    let (frames, next) ← buildFrames p next rest
    return ((k, frame) :: frames, next)

end Accumulator.Layout
