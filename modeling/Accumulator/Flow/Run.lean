import Accumulator.Flow.Basic
import Accumulator.World

/-!
# The meaning of flow programs

Each instruction computes its value once from the values of its operands, and each variable is an
object of its own. A value is a word or the address of a cell; a variable by reference holds an
address. Values last to the end of their block, variables to the end of the run. Beside the world a
run keeps a trace of what it does.
-/

namespace Accumulator.Flow

/-- Whether a test holds of a word. Any test but that for zero asks for a positive word. -/
def Test.holds (t : Test) (x : UInt64) : Bool := if t = .zero then x = 0 else 0 < x

inductive Value where
  | word (n : UInt64)
  | addr (c : Cell)
  /-- What an instruction is worth that computes nothing. -/
  | nothing
  deriving DecidableEq, Repr

def Value.word? : Value → Option UInt64
  | .word n => some n
  | _ => none

def Value.addr? : Value → Option Cell
  | .addr c => some c
  | _ => none

inductive Event where
  | enter (func : Nat) (b : BlockId)
  | read (v : UInt64)
  | write (v : UInt64)
  | store (c : Cell) (v : Value)
  | call (callee : Nat) (args : List Value)
  deriving DecidableEq, Repr

structure Progress where
  world : World Value
  trace : List Event := []

structure Reading where
  program : Program
  division : Word.Division

/-- A block that is being run: the function with its number, and the values computed so far. -/
structure Activation where
  number : Nat
  func : Func
  values : Id → Value := fun _ => .nothing

def Func.varOf? (f : Func) (id : Id) : Option Variable :=
  match f.payload id with
  | .ok (.var v) => some v
  | _ => none

namespace Activation

def set (a : Activation) (id : Id) (v : Option Value) : Activation :=
  match v with
  | none => a
  | some v => { a with values := fun i => if i = id then v else a.values i }

def object? (a : Activation) (id : Id) : Option Object :=
  (a.func.varOf? id).map fun _ => ⟨a.number, id.toNat⟩

def word? (a : Activation) (id : Id) : Option UInt64 := (a.values id).word?

/-- The cell that an operand names: that of a variable, or the one whose address was computed. -/
def cell? (a : Activation) (id : Id) : Option Cell :=
  match a.object? id with
  | some o => some ⟨o, 0⟩
  | none => (a.values id).addr?

end Activation

inductive Ending where
  | returned
  | stopped
  deriving DecidableEq, Repr

abbrev Exec := Accumulator.Exec Progress

namespace Reading

def record (e : Event) : Exec Unit := modify fun s => { s with trace := s.trace ++ [e] }

def get (c : Cell) : Exec Value := return (← getThe Progress).world.cells c

def fill (c : Cell) (v : Value) : Exec Unit := modify fun s => { s with world := s.world.write c v }

def put (c : Cell) (v : Value) : Exec Unit := do
  fill c v
  record (.store c v)

def input : Exec UInt64 := do
  let s ← getThe Progress
  match s.world.input with
  | [] => throw .noInput
  | v :: rest =>
    set { s with world := { s.world with input := rest } }
    record (.read v)
    return v

def output (v : UInt64) : Exec Unit := do
  modify fun s => { s with world := { s.world with output := s.world.output.push v } }
  record (.write v)

def cellCount (r : Reading) (o : Object) : Nat :=
  match r.program.funcs[o.func]? with
  | none => 0
  | some f =>
    match f.varOf? o.var with
    | some v => max 1 v.size.toNat
    | none => 0

def element (r : Reading) (c : Cell) (i : UInt64) : Exec Cell :=
  let d : Cell := ⟨c.object, c.offset + i.toNat⟩
  if d.offset < r.cellCount c.object then return d else throw (.outside d)

def behind (a : Activation) (id : Id) : Exec Cell := do
  let o ← Exec.required (a.object? id)
  Exec.required (← get ⟨o, 0⟩).addr?

/-- The value of an operation. A shift goes by one bit and has no use for its right operand. The
value of a comparison is positive exactly if it holds: those that the machine can test are worth the
difference of their operands. -/
def operate (r : Reading) (op : Op) (x y : UInt64) : Exec UInt64 :=
  match op with
  | .add => return Word.add x y
  | .sub => return Word.sub x y
  | .mul => return Word.mul x y
  | .div => return (← Exec.divide r.division x y).1
  | .mod => return (← Exec.divide r.division x y).2
  | .shl => return Word.mul x 2
  | .shr => return Word.div x 2
  | .eq => return Word.ofBool (x = y)
  | .ne => return Word.add (Word.sub x y) (Word.sub y x)
  | .lt => return Word.sub y x
  | .gt => return Word.sub x y
  | .le => return Word.ofBool (x ≤ y)
  | .ge => return Word.ofBool (y ≤ x)
  | .unknown _ => throw .senseless

def compute (r : Reading) (a : Activation) : Payload → Exec (Option Value)
  | .const k => return some (.word k)
  | .elemAddr v i => do
    let o ← Exec.required (a.object? v)
    return some (.addr (← r.element ⟨o, 0⟩ (← Exec.required (a.word? i))))
  | .elemAddrIndirect v i => do
    let c ← behind a v
    return some (.addr (← r.element c (← Exec.required (a.word? i))))
  | .load src | .loadPair src => do return some (← get (← Exec.required (a.cell? src)))
  | .loadIndirect src => do return some (← get (← behind a src))
  | .alu op left right => do
    let y ← Exec.required (a.word? right)
    let x ← Exec.required (a.word? left)
    return some (.word (← r.operate op x y))
  | .read => return some (.word (← input))
  | .store dst src => do
    put (← Exec.required (a.cell? dst)) (a.values src)
    return none
  | .storeIndirect dst src => do
    put (← behind a dst) (a.values src)
    return none
  | .write src => do
    output (← Exec.required (a.word? src))
    return none
  | .var _ | .stop | .ret | .call _ _ | .branch _ | .branchIf _ _ _ _ => throw .senseless

/-- What a parameter is given for an argument. A reference passes on the address it holds or takes
the address of the variable; a value is copied. -/
def passed (a : Activation) (p : Variable) (arg : Id) : Exec Value := do
  let v ← Exec.required (a.func.varOf? arg)
  let c : Cell := ⟨⟨a.number, arg.toNat⟩, 0⟩
  if p.byRef then
    if v.byRef then get c else return .addr c
  else if v.byRef then get (← behind a arg)
  else get c

def pass (a : Activation) (k : Nat) (g : Func) : List Id → List Id → Exec (List Value)
  | [], [] => return []
  | param :: params, arg :: args => do
    let v ← passed a (← Exec.required (g.varOf? param)) arg
    fill ⟨⟨k, param.toNat⟩, 0⟩ v
    return v :: (← pass a k g params args)
  | _, _ => throw .senseless

/-- Run the code of a block, given how a block of a function is run that control goes to. -/
def exec (r : Reading) (goTo : Nat → BlockId → Exec Ending) : Activation → List Id → Exec Ending
  | _, [] => throw .senseless
  | a, id :: rest => do
    match ← Exec.required (a.func.payload id).toOption with
    | .stop => return .stopped
    | .ret => return .returned
    | .branch b => goTo a.number b
    | .branchIf test cond thenTo elseTo =>
      let x ← Exec.required (a.word? cond)
      goTo a.number (if test.holds x then thenTo else elseTo)
    | .call callee args =>
      let g ← Exec.required (lookup r.program.funcs callee).toOption
      record (.call callee.toNat (← pass a callee.toNat g g.params args))
      match ← goTo callee.toNat g.entry with
      | .stopped => return .stopped
      | .returned => r.exec goTo a rest
    | x => r.exec goTo (a.set id (← r.compute a x)) rest

/-- Run block `b` of function number `k` to a depth of `n`: of the branches and the calls that lead
to an instruction. -/
def block (r : Reading) : Nat → Nat → BlockId → Exec Ending
  | 0, _, _ => throw .unfinished
  | n + 1, k, b => do
    let f ← Exec.required r.program.funcs[k]?
    let code ← Exec.required (f.code b).toOption
    record (.enter k b)
    r.exec (r.block n) { number := k, func := f } code.toList

def runFunc (r : Reading) (n k : Nat) (w : World Value) : Except Interrupt Ending × Progress :=
  let start : Exec Ending := do
    let f ← Exec.required r.program.funcs[k]?
    r.block n k f.entry
  start.run { world := w }

/-- The world at the start of function number `k`, whose variables by reference hold the addresses of
given variables. All other cells hold zero. -/
def givenWorld (r : Reading) (k : Nat) (given : Nat → Object) (words : List UInt64) : World Value :=
  { cells := fun c =>
      if c.object.func = k ∧
          ((r.program.funcs[k]?).bind fun f => f.varOf? c.object.var).any (·.byRef) = true then
        .addr ⟨given c.object.var, 0⟩
      else .word 0
    input := words }

def runGiven (r : Reading) (given : Nat → Object) (n : Nat) (words : List UInt64) :
    Except Interrupt Ending × Progress :=
  match r.program.main? with
  | some k => r.runFunc n k (r.givenWorld k given words)
  | none => (.error .senseless, { world := World.start (.word 0) words })

/-- Run the main function to a depth of `n`. All cells hold zero at first. -/
def run (r : Reading) (n : Nat) (words : List UInt64) : Except Interrupt Ending × Progress :=
  match r.program.main? with
  | some k => r.runFunc n k (World.start (.word 0) words)
  | none => (.error .senseless, { world := World.start (.word 0) words })

end Reading

end Accumulator.Flow
