import Accumulator.Flow.Walk
import Accumulator.Layout.Frame
import Accumulator.Layout.Recipe

/-!
# Instruction selection

Each flow instruction becomes a piece of machine code that finds its operands in registers `a` and
`b` and leaves its value in `a`, or in `b` for the second value of a pair. A function that is not
the entry of the program keeps its return address in a cell of its own.
-/

namespace Accumulator.Layout

structure Context where
  program : Flow.Program
  frames : Frames
  number : Nat
  func : Flow.Func
  ret : Option Cells := none

namespace Context

def address (c : Context) (id : Flow.Id) (r : Machine.Reg) : Except Fault (List Item) := do
  return constant (← c.frames.cells c.number id).addr.toUInt64 r

/-- Code that passes one argument. A reference passes on the address it holds, or takes the address
of the variable; a value is copied. -/
def argument (p a : Cells) : List Item :=
  if p.indirect && a.indirect then
    constant a.addr.toUInt64 .a ++ [{ op := .load, reg := .a }] ++ constant p.addr.toUInt64 .b ++
      [{ op := .store, reg := .b }]
  else if p.indirect then
    constant p.addr.toUInt64 .b ++ constant a.addr.toUInt64 .a ++ [{ op := .store, reg := .b }]
  else
    constant a.addr.toUInt64 .a ++ [{ op := .load, reg := .a }] ++
      (if a.indirect then [{ op := .load, reg := .a }] else []) ++
      constant p.addr.toUInt64 .b ++ [{ op := .store, reg := .b }]

def arguments (c : Context) (callee : Int) (params args : List Flow.Id) :
    Except Fault (List Item) := do
  return (← (params.zip args).mapM fun (param, arg) => do
    let p ← c.frames.cells callee.toNat param
    let a ← c.frames.cells c.number arg
    return argument p a).flatten

/-- The code of a call. The return address is the number of the instruction that takes it, so the
callee returns two instructions behind it. -/
def call (c : Context) (callee : Int) (args : List Flow.Id) : Except Fault (List Item) := do
  let g ← Flow.lookup c.program.funcs callee
  if args.length ≠ g.params.length then throw .argumentCount
  return (← c.arguments callee g.params args) ++
    [{ op := .strk, reg := .a }, { op := .jump, target := .func callee }]

def select (c : Context) : Flow.Payload → Except Fault (List Item)
  | .var _ => .error .misplacedVariable
  | .const k => .ok (constant k .a)
  | .elemAddr v _ => do return (← c.address v .b) ++ [{ op := .add, reg := .b }]
  | .elemAddrIndirect v _ => do
    return { op := .put, reg := .b } :: (← c.address v .a) ++
      [{ op := .load, reg := .a }, { op := .add, reg := .b }]
  | .store dst _ => do
    if (← c.func.var? dst).isSome then
      return (← c.address dst .b) ++ [{ op := .store, reg := .b }]
    else return [{ op := .store, reg := .b }]
  | .storeIndirect dst _ => do
    return { op := .put, reg := .c } :: (← c.address dst .a) ++
      [{ op := .load, reg := .a }, { op := .put, reg := .b }, { op := .get, reg := .c },
        { op := .store, reg := .b }]
  | .load src => do
    if (← c.func.var? src).isSome then
      return { op := .put, reg := .b } :: (← c.address src .a) ++ [{ op := .load, reg := .a }]
    else return [{ op := .load, reg := .a }]
  | .loadIndirect src => do
    return { op := .put, reg := .b } :: (← c.address src .a) ++
      [{ op := .load, reg := .a }, { op := .load, reg := .a }]
  | .loadPair src => do
    return { op := .put, reg := .h } :: (← c.address src .a) ++
      [{ op := .load, reg := .a }, { op := .put, reg := .b }, { op := .get, reg := .h }]
  | .alu op _ _ => arithmetic op
  | .stop => .ok [{ op := .halt }]
  | .ret =>
    match c.ret with
    | none => .error .outOfRange
    | some cell => .ok (constant cell.addr.toUInt64 .a ++
        [{ op := .load, reg := .a }, { op := .inc, reg := .a }, { op := .inc, reg := .a },
          { op := .jumpr, reg := .a }])
  | .call callee args => c.call callee args
  | .branch t => .ok [{ op := .jump, target := .block t }]
  | .branchIf test _ a b =>
    .ok [{ op := if test = .zero then .jzero else .jpos, target := .block a },
      { op := .jump, target := .block b }]
  | .read => .ok [{ op := .put, reg := .b }, { op := .read }]
  | .write _ => .ok [{ op := .write }]

end Context

structure Located where
  item : Item
  loc : Position
  deriving DecidableEq, Repr, Inhabited

def locate (loc : Position) (items : List Item) : List Located := items.map (⟨·, loc⟩)

/-- The code of a block. Every block has some. -/
def Context.block (c : Context) (b : Flow.BlockId) : Except Fault (List Located) := do
  let code ← (← c.func.code b).toList.mapM fun id => do
    let s ← c.func.slot id
    return locate s.loc (← c.select s.payload)
  if code.isEmpty then throw (.block b)
  return code.flatten

structure FuncCode where
  number : Nat
  name : Bytes
  ret : Option Cells
  opening : List Located
  blocks : List (Flow.BlockId × List Located)
  deriving DecidableEq, Repr

namespace FuncCode

def items (c : FuncCode) : List Located := c.opening ++ c.blocks.flatMap (·.2)

def startsFrom (start : Nat) :
    List (Flow.BlockId × List Located) → List (Flow.BlockId × Nat)
  | [] => []
  | (b, code) :: rest => (b, start) :: startsFrom (start + code.length) rest

def starts (c : FuncCode) (start : Nat) : List (Flow.BlockId × Nat) :=
  startsFrom (start + c.opening.length) c.blocks

end FuncCode

/-- Select the code of a function. One that is not an entry first stores its return address. -/
def selectFunc (p : Flow.Program) (frames : Frames) (next : Int64) (k : Nat) :
    Except Fault (FuncCode × Int64) := do
  let f ← Flow.lookup p.funcs k
  let (cell, after) := allocate next (Text.bytes "ret") 1 false
  let (ret, next) := if f.isMain then (none, next) else (some cell, after)
  let opening := match ret with
    | none => []
    | some cell => constant cell.addr.toUInt64 .b ++ [{ op := .store, reg := .b }]
  let c : Context := { program := p, frames := frames, number := k, func := f, ret := ret }
  let blocks ← f.walk (fun _ => f) (fun done b => return done ++ [(b, ← c.block b)]) []
  return ({ number := k, name := f.name, ret := ret, opening := locate f.loc opening,
            blocks := blocks }, next)

end Accumulator.Layout
