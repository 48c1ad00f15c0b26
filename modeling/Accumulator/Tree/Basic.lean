import Accumulator.Fault
import Accumulator.Position
import Accumulator.Text.Bytes

/-!
# Program trees

A program is a list of procedures, one of them the main program. Names are resolved: a variable is a
parameter or a local of its procedure, by number, and a call names its procedure by number. Trees
are not checked: parts may be missing, and a variable may belong to another procedure.
-/

namespace Accumulator.Tree

/-- Operators, in the order of their codes. All from `eq` on compare. -/
inductive Op where
  | add
  | sub
  | mul
  | div
  | mod
  | eq
  | ne
  | lt
  | gt
  | le
  | ge
  | unknown (code : Int)
  deriving DecidableEq, Repr, Inhabited

namespace Op

def all : List Op := [.add, .sub, .mul, .div, .mod, .eq, .ne, .lt, .gt, .le, .ge]

def code : Op → Int
  | .add => 0
  | .sub => 1
  | .mul => 2
  | .div => 3
  | .mod => 4
  | .eq => 5
  | .ne => 6
  | .lt => 7
  | .gt => 8
  | .le => 9
  | .ge => 10
  | .unknown n => n

def ofCode (n : Int) : Op := (all.find? (·.code == n)).getD (.unknown n)

def isRelational (op : Op) : Bool := 5 ≤ op.code

def symbol : Op → String
  | .add => "+"
  | .sub => "-"
  | .mul => "*"
  | .div => "/"
  | .mod => "%"
  | .eq => "="
  | .ne => "!="
  | .lt => "<"
  | .gt => ">"
  | .le => "<="
  | .ge => ">="
  | .unknown _ => ""

def ofSymbol? (s : Bytes) : Option Op := all.find? (Text.bytes ·.symbol == s)

end Op

inductive Ref where
  /-- A parameter of the procedure at hand. -/
  | param (i : Nat)
  /-- A local variable of the procedure at hand. -/
  | localVar (i : Nat)
  | otherParam
  | otherLocal
  | missing
  deriving DecidableEq, Repr, Inhabited

inductive Expr where
  | missing
  | number (pos : Position) (value : UInt64)
  | ident (pos : Position) (ref : Ref)
  | index (pos : Position) (ref : Ref) (offset : Expr)
  | binary (pos : Position) (op : Op) (l r : Expr)
  deriving DecidableEq, Repr, Inhabited

def Expr.kind : Expr → NodeKind
  | .missing => .nothing
  | .number _ _ => .number
  | .ident _ _ => .ident
  | .index _ _ _ => .index
  | .binary _ _ _ _ => .binary

/-- Statements. The callee of a call is the number of a procedure. -/
inductive Stmt where
  | missing
  | assign (pos : Position) (dst src : Expr)
  | choose (pos : Position) (cond : Expr) (yes no : List Stmt)
  | loop (pos : Position) (cond : Expr) (body : List Stmt)
  | untilLoop (pos : Position) (body : List Stmt) (cond : Expr)
  | call (pos : Position) (callee : Option Nat) (args : List Expr)
  | read (pos : Position) (dst : Expr)
  | write (pos : Position) (src : Expr)
  deriving Repr, Inhabited

inductive Mode where
  | byRef
  | byValue
  | unknown (code : Int)
  deriving DecidableEq, Repr, Inhabited

namespace Mode

def code : Mode → Int
  | .byRef => 0
  | .byValue => 1
  | .unknown n => n

def ofCode (n : Int) : Mode := if n = 0 then .byRef else if n = 1 then .byValue else .unknown n

end Mode

structure Param where
  name : Bytes
  mode : Mode := .byRef
  array : Bool := false
  pos : Position := {}
  deriving DecidableEq, Repr, Inhabited

/-- Whether a parameter holds the address of its argument. -/
def Param.isRef (p : Param) : Bool := p.mode = .byRef || p.array

/-- A local variable. One of positive size is an array. -/
structure Local where
  name : Bytes
  size : Int := 0
  pos : Position := {}
  deriving DecidableEq, Repr, Inhabited

structure Proc where
  name : Bytes
  isMain : Bool := false
  pos : Position := {}
  params : List Param := []
  locals : List Local := []
  body : List Stmt := []
  deriving Repr, Inhabited

structure File where
  decls : List Proc := []
  deriving Repr, Inhabited

def File.main? (f : File) : Option Nat := f.decls.findIdx? (·.isMain)

end Accumulator.Tree
