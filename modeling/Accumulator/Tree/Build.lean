import Accumulator.Flow.Edit
import Accumulator.Tree.Basic

/-!
# From trees to flow programs

Each procedure becomes a function: its parameters and locals are variables, and its statements
become blocks. The right operand of an operation is computed before the left one, and the address
that is assigned to before the value. A tree that makes no sense is a fault.
-/

namespace Accumulator.Tree

def Op.toFlow? : Op → Option Flow.Op
  | .add => some .add
  | .sub => some .sub
  | .mul => some .mul
  | .div => some .div
  | .mod => some .mod
  | .eq => some .eq
  | .ne => some .ne
  | .lt => some .lt
  | .gt => some .gt
  | .le => some .le
  | .ge => some .ge
  | .unknown _ => none

structure Builder where
  program : Flow.Program
  current : Flow.BlockId := Flow.noBlock

structure Scope where
  number : Nat
  proc : Proc

abbrev Build := StateT Builder (Except Fault)

namespace Scope

/-- The variable that a name refers to. Parameters come first. -/
def slotOf (c : Scope) : Ref → Except Fault Flow.Id
  | .param i => if i < c.proc.params.length then .ok i else .error .outOfRange
  | .localVar i =>
    if i < c.proc.locals.length then .ok (c.proc.params.length + i : Nat) else .error .outOfRange
  | .otherParam => .error (.node .param)
  | .otherLocal => .error (.node .localVar)
  | .missing => .error (.node .nothing)

def isRef (c : Scope) : Ref → Bool
  | .param i => (c.proc.params[i]?).any (·.isRef)
  | _ => false

def newBlock (c : Scope) : Build Flow.BlockId := do
  let st ← get
  let (b, f) := (← st.program.func c.number).newBlock
  set { st with program := { funcs := st.program.funcs.setIfInBounds c.number f } }
  return b

def enter (b : Flow.BlockId) : Build Unit := modify fun st => { st with current := b }

def emit (c : Scope) (pos : Position) (x : Flow.Payload) : Build Flow.Id := do
  let st ← get
  let (id, p) ← st.program.new c.number pos x
  let p ← p.update c.number fun f => f.append st.current id
  set { st with program := p }
  return id

mutual

def expr (c : Scope) : Expr → Build Flow.Id
  | .missing => throw (.node .nothing)
  | .number pos v => c.emit pos (.const v)
  | .ident pos ref => do
    let v ← c.slotOf ref
    if c.isRef ref then c.emit pos (.loadIndirect v) else c.emit pos (.load v)
  | .index pos ref offset => do
    let addr ← c.element pos ref offset
    c.emit pos (.load addr)
  | .binary pos op l r => do
    if op.isRelational then throw (.node .binary)
    let right ← c.expr r
    let left ← c.expr l
    match op.toFlow? with
    | some op => c.emit pos (.alu op left right)
    | none => throw .outOfRange

def element (c : Scope) (pos : Position) (ref : Ref) (offset : Expr) : Build Flow.Id := do
  let i ← c.expr offset
  let v ← c.slotOf ref
  if c.isRef ref then c.emit pos (.elemAddrIndirect v i) else c.emit pos (.elemAddr v i)

end

/-- Compute a condition: a comparison, or a value that is tested for being positive. -/
def condition (c : Scope) : Expr → Build Flow.Id
  | .binary pos op l r => do
    if op.isRelational then
      let right ← c.expr r
      let left ← c.expr l
      match op.toFlow? with
      | some op => c.emit pos (.alu op left right)
      | none => throw .outOfRange
    else c.expr (.binary pos op l r)
  | e => c.expr e

def address (c : Scope) : Expr → Build Flow.Id
  | .ident pos ref => do
    let v ← c.slotOf ref
    if c.isRef ref then c.emit pos (.load v) else return v
  | .index pos ref offset => c.element pos ref offset
  | e => throw (.node e.kind)

def argument (c : Scope) : Expr → Except Fault Flow.Id
  | .ident _ ref => c.slotOf ref
  | e => .error (.node e.kind)

def assign (c : Scope) (pos : Position) (dst src : Expr) : Build Unit := do
  let d ← c.address dst
  let s ← c.expr src
  discard <| c.emit pos (.store d s)

def read (c : Scope) (pos : Position) (dst : Expr) : Build Unit := do
  match dst with
  | .ident _ ref =>
    let v ← c.slotOf ref
    let r ← c.emit pos .read
    discard <| c.emit pos (if c.isRef ref then .storeIndirect v r else .store v r)
  | _ =>
    let d ← c.address dst
    let r ← c.emit pos .read
    discard <| c.emit pos (.store d r)

def write (c : Scope) (pos : Position) (src : Expr) : Build Unit := do
  let s ← c.expr src
  discard <| c.emit pos (.write s)

def call (c : Scope) (pos : Position) (callee : Option Nat) (args : List Expr) : Build Unit := do
  match callee with
  | none => throw (.node .proc)
  | some k =>
    let ids ← args.mapM fun a => (c.argument a : Build Flow.Id)
    discard <| c.emit pos (.call k ids)

mutual

def stmt (c : Scope) : Stmt → Build Unit
  | .missing => throw (.node .nothing)
  | .assign pos dst src => c.assign pos dst src
  | .read pos dst => c.read pos dst
  | .write pos src => c.write pos src
  | .call pos callee args => c.call pos callee args
  | .choose pos cond yes no => do
    let thenTo ← c.newBlock
    let elseTo ← c.newBlock
    let merge ← c.newBlock
    let t ← c.condition cond
    discard <| c.emit pos (.branchIf .positive t thenTo elseTo)
    enter thenTo
    c.stmts yes
    discard <| c.emit pos (.branch merge)
    enter elseTo
    c.stmts no
    discard <| c.emit pos (.branch merge)
    enter merge
  | .loop pos cond body => do
    let head ← c.newBlock
    let inside ← c.newBlock
    let merge ← c.newBlock
    discard <| c.emit pos (.branch head)
    enter head
    let t ← c.condition cond
    discard <| c.emit pos (.branchIf .positive t inside merge)
    enter inside
    c.stmts body
    discard <| c.emit pos (.branch head)
    enter merge
  | .untilLoop pos body cond => do
    let inside ← c.newBlock
    let merge ← c.newBlock
    discard <| c.emit pos (.branch inside)
    enter inside
    c.stmts body
    let t ← c.condition cond
    discard <| c.emit pos (.branchIf .positive t merge inside)
    enter merge

def stmts (c : Scope) : List Stmt → Build Unit
  | [] => pure ()
  | s :: rest => do
    c.stmt s
    c.stmts rest

end

end Scope

/-- The variables of a procedure. Each has at least one cell. -/
def Proc.vars (d : Proc) : List (Position × Flow.Variable) :=
  d.params.map (fun p =>
    (p.pos, { name := p.name, kind := .param, size := 1, byRef := p.isRef })) ++
  d.locals.map (fun v =>
    (v.pos, { name := v.name, kind := .localVar, size := if v.size < 1 then 1 else v.size }))

def Proc.declare (d : Proc) (f : Flow.Func) : Flow.Func :=
  let f := d.vars.foldl (fun f (pos, v) => (f.newVar pos v).2) f
  let (b, f) := f.newBlock
  { f with entry := b }

def Scope.build (c : Scope) (p : Flow.Program) : Except Fault Flow.Program := do
  let p ← p.update c.number fun f => .ok (c.proc.declare f)
  let st : Builder := { program := p, current := (← p.func c.number).entry }
  let run : Build Unit := do
    c.stmts c.proc.body
    discard <| c.emit c.proc.pos (if c.proc.isMain then .stop else .ret)
  return (← run.run st).2.program

/-- A program must have exactly one main program. -/
structure MainCount where
  count : Nat
  deriving DecidableEq, Repr

def MainCount.message (e : MainCount) : String :=
  s!"expected exactly one main program, got {e.count}"

/-- Build the functions of all procedures, in the order of their declaration. -/
def File.build (file : File) : Except Fault (Except MainCount Flow.Program) := do
  let mains := file.decls.countP (·.isMain)
  if mains ≠ 1 then return .error ⟨mains⟩
  let funcs := file.decls.map fun d =>
    { name := d.name, isMain := d.isMain, loc := d.pos : Flow.Func }
  let p ← file.decls.zipIdx.foldlM (fun p (d, k) => Scope.build ⟨k, d⟩ p) { funcs := funcs.toArray }
  return .ok p

end Accumulator.Tree
