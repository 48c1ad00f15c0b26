/-!
# Source positions

A position is a line and a column of the source text, both counted from one. It travels from the
source tree through the flow program to the machine listing and is only ever printed.
-/

namespace Accumulator

/-- A place in a source text. The default `0:0` stands for no place. -/
structure Position where
  line : Int := 0
  col : Int := 0
  deriving DecidableEq, Repr, Inhabited

namespace Position

def render (p : Position) : String := s!"{p.line}:{p.col}"

end Position

end Accumulator
