import Accumulator.Position
import Accumulator.Text.Bytes

/-!
# Raw programs

The outer shape of a written program: procedures with their parameters and local variables. The
statements of a body are kept as they are written. Where a raw program comes from is left open.
-/

namespace Accumulator.Tree

/-- A part of a written program. An alias shows the name that it uses. -/
inductive Node where
  | scalar (pos : Position) (text : Bytes)
  | sequence (pos : Position) (items : List Node)
  | mapping (pos : Position) (entries : List (Node × Node))
  | alias (pos : Position) (name : Bytes)
  deriving Repr, Inhabited

namespace Node

def pos : Node → Position
  | .scalar p _ | .sequence p _ | .mapping p _ | .alias p _ => p

/-- The text of a scalar or the name of an alias; collections have none. -/
def text : Node → Bytes
  | .scalar _ t => t
  | .alias _ name => name
  | _ => []

end Node

structure RawParam where
  name : Bytes := []
  value : Bool := false
  array : Bool := false
  deriving Repr, Inhabited

structure RawLocal where
  name : Bytes := []
  size : Int := 0
  deriving Repr, Inhabited

structure RawProc where
  pos : Position := {}
  name : Bytes := []
  params : List RawParam := []
  locals : List RawLocal := []
  body : List Node := []
  deriving Repr, Inhabited

/-- A written program. A procedure may be left empty. -/
structure RawFile where
  procedures : List (Option RawProc) := []
  main : Option RawProc := none
  deriving Repr, Inhabited

end Accumulator.Tree
