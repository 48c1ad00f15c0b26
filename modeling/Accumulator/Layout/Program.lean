import Accumulator.Layout.Select
import Accumulator.Listing.Printer

/-!
# Machine programs

`lower` lays out the code of a flow program: the entry function first and the others in the order
of their declaration. Jumps know the number of the instruction they lead to, and `Program.resolve`
makes these numbers their addresses.
-/

namespace Accumulator.Layout

/-- An instruction in its place. A jump leads to instruction `target`, whatever its address says. -/
structure Placed where
  instr : Machine.Instr
  target : Option Nat := none
  loc : Position := {}
  deriving DecidableEq, Repr, Inhabited

structure Func where
  name : Bytes
  start : Nat
  size : Nat
  frame : List Cells
  ret : Option Cells
  deriving DecidableEq, Repr, Inhabited

structure Program where
  code : Array Placed
  funcs : List Func
  /-- The number of cells of all frames. -/
  memory : Int64
  deriving DecidableEq, Repr, Inhabited

namespace Program

def instrs (p : Program) : Array Machine.Instr := p.code.map (·.instr)

/-- Make the number of its target the address of each jump. -/
def resolve (p : Program) : Program :=
  { p with code := p.code.map fun x =>
      match x.target with
      | some t => { x with instr := { x.instr with addr := t } }
      | none => x }

def render (o : Listing.Options) (p : Program) : Bytes :=
  Listing.render o (p.funcs.map fun f => { name := f.name, start := f.start })
    (p.code.toList.map fun x => { instr := x.instr, loc := x.loc })

end Program

inductive LowerError where
  | noMain
  | noCode (name : Bytes)
  deriving DecidableEq, Repr

def LowerError.message : LowerError → Bytes
  | .noMain => Text.bytes "no main program"
  | .noCode name => Text.bytes "func " ++ name ++ Text.bytes ": no code"

/-- The code of functions in their order, each with the number of its first instruction. -/
def selectFrom (p : Flow.Program) (frames : Frames) (start : Nat) (next : Int64) :
    List Nat → ExceptT LowerError (Except Fault) (List (Nat × FuncCode) × Int64)
  | [] => pure ([], next)
  | k :: rest => do
    let (c, next) ← selectFunc p frames next k
    let size := c.items.length
    if size = 0 then throw (.noCode c.name)
    let (l, next) ← selectFrom p frames (start + size) next rest
    return ((start, c) :: l, next)

/-- The places of the blocks of all functions. If a function was laid out twice the last counts. -/
def blockStarts (codes : List (Nat × FuncCode)) : List ((Nat × Flow.BlockId) × Nat) :=
  (codes.flatMap fun (start, c) =>
    (c.starts start).map fun (b, i) => ((c.number, b), i)).reverse

def funcStarts (codes : List (Nat × FuncCode)) : List (Nat × Nat) :=
  (codes.map fun (start, c) => (c.number, start)).reverse

def checkBlocks (starts : List ((Nat × Flow.BlockId) × Nat)) (c : FuncCode) :
    Except Fault Unit :=
  c.items.forM fun x =>
    match x.item.target with
    | .block b => if (starts.lookup (c.number, b)).isSome then .ok () else .error (.block b)
    | _ => .ok ()

def checkCalls (p : Flow.Program) (starts : List (Nat × Nat)) (c : FuncCode) :
    Except Fault Unit :=
  c.items.forM fun x =>
    match x.item.target with
    | .func k => do
      if (starts.lookup k.toNat).isSome then return ()
      else throw (.uncoded (← Flow.lookup p.funcs k).name)
    | _ => .ok ()

def Target.place? (blocks : List ((Nat × Flow.BlockId) × Nat)) (funcs : List (Nat × Nat))
    (number i : Nat) : Target → Option Nat
  | .nowhere => none
  | .within d => some (i + d).toNat
  | .block b => blocks.lookup (number, b)
  | .func k => funcs.lookup k.toNat

def placeItems (blocks : List ((Nat × Flow.BlockId) × Nat)) (funcs : List (Nat × Nat))
    (start : Nat) (c : FuncCode) : List Placed :=
  c.items.zipIdx.map fun (x, i) =>
    { instr := { op := x.item.op, reg := x.item.reg }, loc := x.loc,
      target := x.item.target.place? blocks funcs c.number (start + i) }

def lowerOnly (p : Flow.Program) (ids : List Nat) :
    ExceptT LowerError (Except Fault) Program := do
  match ids.find? fun k => (p.funcs[k]?).any (·.isMain) with
  | none => throw .noMain
  | some main =>
    let (frames, next) ← buildFrames p 0 ids
    let (codes, next) ← selectFrom p frames 0 next (main :: ids.filter (· ≠ main))
    let blocks := blockStarts codes
    let funcs := funcStarts codes
    codes.forM fun (_, c) => checkBlocks blocks c
    codes.forM fun (_, c) => checkCalls p funcs c
    return {
      code := (codes.flatMap fun (start, c) => placeItems blocks funcs start c).toArray
      funcs := codes.map fun (start, c) =>
        { name := c.name, start := start, size := c.items.length,
          frame := (frames.frame c.number).map (·.2), ret := c.ret }
      memory := next }

def lower (p : Flow.Program) : Except Fault (Except LowerError Program) :=
  (lowerOnly p (List.range p.funcs.size)).run

end Accumulator.Layout
