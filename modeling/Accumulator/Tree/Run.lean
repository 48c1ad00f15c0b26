import Accumulator.Tree.Basic
import Accumulator.World

/-!
# The meaning of trees

A tree is run as it is written. A parameter by reference stands for the variable of the caller, one
by value is a copy, and all variables of a procedure keep what they hold from one call to the next.
A condition holds if its comparison does, or if its value is positive.
-/

namespace Accumulator.Tree

def Op.holds? : Op → UInt64 → UInt64 → Option Bool
  | .eq, x, y => some (x = y)
  | .ne, x, y => some (x ≠ y)
  | .lt, x, y => some (x < y)
  | .gt, x, y => some (y < x)
  | .le, x, y => some (x ≤ y)
  | .ge, x, y => some (y ≤ x)
  | _, _, _ => none

structure Reading where
  file : File
  division : Word.Division

/-- A procedure that is being run: its number and the objects that its parameters stand for. -/
structure Activation where
  number : Nat
  proc : Proc
  params : List Object

/-- Variables are numbered with the parameters first. -/
def Activation.object? (a : Activation) : Ref → Option Object
  | .param i => a.params[i]?
  | .localVar i =>
    if i < a.proc.locals.length then some ⟨a.number, a.proc.params.length + i⟩ else none
  | _ => none

/-- The main program at its start, as procedure number `k`. Nobody calls it: its parameters by reference
stand for given variables, and those by value are variables of its own. -/
def Activation.opening (given : Nat → Object) (k : Nat) (d : Proc) : Activation :=
  ⟨k, d, d.params.mapIdx fun i p => if p.isRef then given i else ⟨k, i⟩⟩

def File.cellCount (file : File) (o : Object) : Nat :=
  match file.decls[o.func]? with
  | none => 0
  | some d =>
    if o.var < d.params.length then 1
    else
      match d.locals[o.var - d.params.length]? with
      | none => 0
      | some v => max 1 v.size.toNat

abbrev Exec := Accumulator.Exec (World UInt64)

namespace Reading

def get (c : Cell) : Exec UInt64 := return (← getThe (World UInt64)).cells c

def put (c : Cell) (v : UInt64) : Exec Unit := modify (·.write c v)

def input : Exec UInt64 := do
  let w ← getThe (World UInt64)
  match w.input with
  | [] => throw .noInput
  | v :: rest =>
    set { w with input := rest }
    return v

def output (v : UInt64) : Exec Unit := modify fun w => { w with output := w.output.push v }

def element (r : Reading) (o : Object) (i : UInt64) : Exec Cell :=
  if i.toNat < r.file.cellCount o then return ⟨o, i.toNat⟩ else throw (.outside ⟨o, i.toNat⟩)

def operate (r : Reading) (op : Op) (x y : UInt64) : Exec UInt64 :=
  match op with
  | .add => return Word.add x y
  | .sub => return Word.sub x y
  | .mul => return Word.mul x y
  | .div => return (← Exec.divide r.division x y).1
  | .mod => return (← Exec.divide r.division x y).2
  | _ => throw .senseless

def value (r : Reading) (a : Activation) : Expr → Exec UInt64
  | .missing => throw .senseless
  | .number _ v => return v
  | .ident _ ref => do get ⟨← Exec.required (a.object? ref), 0⟩
  | .index _ ref offset => do
    let i ← r.value a offset
    get (← r.element (← Exec.required (a.object? ref)) i)
  | .binary _ op left right => do
    let y ← r.value a right
    let x ← r.value a left
    r.operate op x y

def holds (r : Reading) (a : Activation) : Expr → Exec Bool
  | .binary pos op left right => do
    if op.isRelational then
      let y ← r.value a right
      let x ← r.value a left
      Exec.required (op.holds? x y)
    else return 0 < (← r.value a (.binary pos op left right))
  | e => return 0 < (← r.value a e)

def place (r : Reading) (a : Activation) : Expr → Exec Cell
  | .ident _ ref => return ⟨← Exec.required (a.object? ref), 0⟩
  | .index _ ref offset => do
    let i ← r.value a offset
    r.element (← Exec.required (a.object? ref)) i
  | _ => throw .senseless

def argument (a : Activation) : Expr → Exec Object
  | .ident _ ref => Exec.required (a.object? ref)
  | _ => throw .senseless

/-- Pass arguments to the parameters of procedure `k`, from parameter `i` on. -/
def pass (a : Activation) (k : Nat) : Nat → List Param → List Expr → Exec (List Object)
  | _, [], [] => return []
  | i, p :: params, e :: args => do
    let o ← argument a e
    if p.isRef then return o :: (← pass a k (i + 1) params args)
    else
      put ⟨⟨k, i⟩, 0⟩ (← get ⟨o, 0⟩)
      return ⟨k, i⟩ :: (← pass a k (i + 1) params args)
  | _, _, _ => throw .senseless

mutual

/-- Run a statement, given how called bodies and further rounds of a loop are run. -/
def stmt (r : Reading) (again : Activation → List Stmt → Exec Unit) (a : Activation) :
    Stmt → Exec Unit
  | .missing => throw .senseless
  | .assign _ dst src => do
    let c ← r.place a dst
    put c (← r.value a src)
  | .read _ dst => do
    let c ← r.place a dst
    put c (← input)
  | .write _ src => do output (← r.value a src)
  | .choose _ cond yes no => do
    if ← r.holds a cond then r.stmts again a yes else r.stmts again a no
  | .loop pos cond body => do
    if ← r.holds a cond then
      r.stmts again a body
      again a [.loop pos cond body]
  | .untilLoop pos body cond => do
    r.stmts again a body
    if ← r.holds a cond then return
    again a [.untilLoop pos body cond]
  | .call _ callee args => do
    let k ← Exec.required callee
    let d ← Exec.required r.file.decls[k]?
    let params ← pass a k 0 d.params args
    again ⟨k, d, params⟩ d.body

def stmts (r : Reading) (again : Activation → List Stmt → Exec Unit) (a : Activation) :
    List Stmt → Exec Unit
  | [] => return
  | s :: rest => do
    r.stmt again a s
    r.stmts again a rest

end

/-- Run statements to a depth of `n`: of the calls and the rounds of loops that lead to a
statement. -/
def exec (r : Reading) : Nat → Activation → List Stmt → Exec Unit
  | 0, _, _ => throw .unfinished
  | n + 1, a, ss => r.stmts (r.exec n) a ss

def runGiven (r : Reading) (given : Nat → Object) (n : Nat) (words : List UInt64) :
    Except Interrupt Unit × World UInt64 :=
  let main : Exec Unit := do
    let k ← Exec.required r.file.main?
    let d ← Exec.required r.file.decls[k]?
    r.exec n (.opening given k d) d.body
  main.run (World.start 0 words)

/-- Run the main program to a depth of `n`. All cells hold zero at first. The main program is called
by nobody, so its parameters are variables of its own. -/
def run (r : Reading) (n : Nat) (words : List UInt64) : Except Interrupt Unit × World UInt64 :=
  let main : Exec Unit := do
    let k ← Exec.required r.file.main?
    let d ← Exec.required r.file.decls[k]?
    r.exec n ⟨k, d, (List.range d.params.length).map (⟨k, ·⟩)⟩ d.body
  main.run (World.start 0 words)

end Reading

end Accumulator.Tree
