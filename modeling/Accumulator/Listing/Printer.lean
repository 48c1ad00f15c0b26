import Accumulator.Machine.Instr
import Accumulator.Position
import Accumulator.Text.Bytes

/-!
# Printing listings

A listing is one instruction a line. Function starts can be marked with comment lines, and each
instruction can be followed by a comment with its number and its source position.
-/

namespace Accumulator.Listing

open Machine Text

/-- An instruction with the source position it was made for. -/
structure Line where
  instr : Instr
  loc : Position := {}
  deriving DecidableEq, Repr, Inhabited

structure Mark where
  name : Bytes
  start : Int
  deriving DecidableEq, Repr

structure Options where
  locations : Bool := false
  functions : Bool := false
  deriving DecidableEq, Repr

/-- The comment line before instruction `i`. If several functions start there the last counts. -/
def header (marks : List Mark) (i : Nat) : Bytes :=
  match marks.reverse.find? (·.start == (i : Int)) with
  | some m => bytes "# " ++ m.name ++ bytes "\n"
  | none => []

def remark (o : Options) (i : Nat) (l : Line) : String :=
  if o.locations then s!"\t# {i} {l.loc.render}" else ""

def renderLine (o : Options) (marks : List Mark) (i : Nat) (l : Line) : Bytes :=
  (if o.functions then header marks i else []) ++ bytes (l.instr.render ++ remark o i l ++ "\n")

def render (o : Options) (marks : List Mark) (code : List Line) : Bytes :=
  code.zipIdx.flatMap fun (l, i) => renderLine o marks i l

end Accumulator.Listing
