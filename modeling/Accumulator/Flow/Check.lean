import Accumulator.Flow.Walk

/-!
# Well-formed functions

`Func.verify` checks the blocks that can be reached from the entry and then every slot. It stops at
the first defect. A branch that leads outside the function already breaks the walk over the blocks,
so it is a fault and not a defect.
-/

namespace Accumulator.Flow

def renderIds (ids : List Id) : String :=
  "[" ++ " ".intercalate (ids.map fun id => s!"{id}") ++ "]"

inductive Defect where
  | noEntry
  | emptyBlock (b : BlockId)
  | erasedInCode (b : BlockId) (id : Id)
  | otherBlock (b : BlockId) (id : Id) (owner : BlockId)
  | variableInCode (b : BlockId) (id : Id)
  | terminator (b : BlockId) (id : Id) (x : Payload)
  | badSuccessor (b s : BlockId)
  | erasedWithUsers (id : Id) (users : List Id)
  | badOperand (id : Id) (x : Payload) (operand : Id)
  | unknownUser (id : Id) (x : Payload) (operand : Id)
  | lateOperand (id : Id) (x : Payload) (operand : Id)
  | staleUser (id : Id) (x : Payload) (user : Id)
  deriving DecidableEq, Repr

def Defect.message : Defect → String
  | .noEntry => "no entry block"
  | .emptyBlock b => s!"block {b}: empty"
  | .erasedInCode b id => s!"block {b}: erased instruction {id}"
  | .otherBlock b id owner => s!"block {b}: instruction {id} belongs to {owner}"
  | .variableInCode b id => s!"block {b}: variable {id} placed into block"
  | .terminator b id x =>
    s!"block {b}: instruction {id} ({x.typeName}): terminator must end the block"
  | .badSuccessor b s => s!"block {b}: bad successor {s}"
  | .erasedWithUsers id users => s!"erased instruction {id} has users {renderIds users}"
  | .badOperand id x op => s!"instruction {id} ({x.typeName}): bad operand {op}"
  | .unknownUser id x op =>
    s!"instruction {id} ({x.typeName}): operand {op} doesn't know its user"
  | .lateOperand id x op =>
    s!"instruction {id} ({x.typeName}): operand {op} doesn't precede it in the block"
  | .staleUser id x user => s!"instruction {id} ({x.typeName}): stale user {user}"

/-- A check ends well, with a defect, or in a fault. -/
abbrev Check := ExceptT Defect (Except Fault)

namespace Func

def checkPlaced (f : Func) (b : BlockId) (id : Id) (last : Bool) : Check Unit := do
  let s ← f.slot id
  if s.dead then throw (.erasedInCode b id)
  if s.block ≠ b then throw (.otherBlock b id s.block)
  match s.payload with
  | .var _ => throw (.variableInCode b id)
  | x => if x.isTerminal ≠ last then throw (.terminator b id x)

def checkCode (f : Func) (b : BlockId) : List Id → Check Unit
  | [] => pure ()
  | id :: rest => do
    f.checkPlaced b id rest.isEmpty
    f.checkCode b rest

def checkBlock (f : Func) (b : BlockId) : Check Unit := do
  let code ← f.code b
  if code.isEmpty then throw (.emptyBlock b)
  f.checkCode b code.toList
  for s in ← f.successors b do
    if s < 0 ∨ f.blocks.size ≤ s then throw (.badSuccessor b s)

/-- The index of an instruction in its block, if that is one of the given blocks. -/
def index? (f : Func) (blocks : List BlockId) (id : Id) : Option Nat := do
  let s ← f.slots[id.toNat]?
  guard (s.block ∈ blocks)
  let code ← f.blocks[s.block.toNat]?
  let (_, i) ← code.toList.zipIdx.reverse.find? (·.1 == id)
  return i

/-- Check that a value is computed before it is used, in the same block. -/
def checkOrder (f : Func) (blocks : List BlockId) (id op : Id) (u d : Slot) : Check Unit := do
  match d.payload with
  | .var _ => pure ()
  | _ =>
    match f.index? blocks id with
    | none => pure ()
    | some i =>
      if d.block ≠ u.block ∨ i ≤ (f.index? blocks op).getD 0 then
        throw (.lateOperand id u.payload op)

def checkOperand (f : Func) (blocks : List BlockId) (id : Id) (u : Slot) (op : Id) :
    Check Unit := do
  if op < 0 ∨ f.slots.size ≤ op then throw (.badOperand id u.payload op)
  let d ← f.slot op
  if d.dead then throw (.badOperand id u.payload op)
  if d.refs.count id ≠ u.payload.operands.count op then throw (.unknownUser id u.payload op)
  f.checkOrder blocks id op u d

def checkUser (f : Func) (id : Id) (s : Slot) (user : Id) : Check Unit := do
  let u ← f.slot user
  if u.dead ∨ id ∉ u.payload.operands then throw (.staleUser id s.payload user)

def checkSlot (f : Func) (blocks : List BlockId) (id : Id) (s : Slot) : Check Unit := do
  if s.dead then
    if s.refs ≠ [] then throw (.erasedWithUsers id s.refs)
  else
    s.payload.operands.forM (f.checkOperand blocks id s)
    s.refs.forM (f.checkUser id s)

def check (f : Func) : Check Unit := do
  if f.entry = noBlock then throw .noEntry
  let blocks ← f.reachable
  blocks.forM f.checkBlock
  f.slots.toList.zipIdx.forM fun (s, id) => f.checkSlot blocks id s

def verify (f : Func) : Except Fault (Except Defect Unit) := f.check.run

end Func

end Accumulator.Flow
