import Accumulator.Flow.Basic

/-!
# Editing flow functions

Allocation, placement and removal of instructions, and redirection of uses. Each operation keeps
the lists of users in step with the operands: a slot occurs among the users of another once per
operand that names it. An operation whose precondition fails is a fault.
-/

namespace Accumulator.Flow

namespace Func

def newBlock (f : Func) : BlockId × Func :=
  (f.blocks.size, { f with blocks := f.blocks.push #[] })

def addRef (f : Func) (item user : Id) : Except Fault Func :=
  f.updateSlot item fun s => { s with refs := s.refs ++ [user] }

/-- Remove one use. It has to be there. -/
def removeRef (f : Func) (item user : Id) : Except Fault Func := do
  if user ∈ (← f.refs item) then
    f.updateSlot item fun s => { s with refs := s.refs.erase user }
  else throw (.instruction user)

/-- Allocate an instruction that is in no block yet. Payloads are values: one that is given twice
makes two instructions that do not share their operands, so what happens to a payload that is shared
by reference is not described. -/
def new (f : Func) (loc : Position) (x : Payload) : Except Fault (Id × Func) := do
  let id : Id := f.slots.size
  let f := { f with slots := f.slots.push { payload := x, loc := loc } }
  return (id, ← x.operands.foldlM (fun f op => f.addRef op id) f)

def newVar (f : Func) (loc : Position) (v : Variable) : Id × Func :=
  let id : Id := f.slots.size
  let f := { f with slots := f.slots.push { payload := .var v, loc := loc } }
  match v.kind with
  | .localVar => (id, { f with locals := f.locals ++ [id] })
  | .param => (id, { f with params := f.params ++ [id] })
  | .unknown _ => (id, f)

/-- Mark an instruction as part of a block. It has to be alive, in no block, and no variable. -/
def place (f : Func) (b : BlockId) (id : Id) : Except Fault Func := do
  let s ← f.slot id
  match s.payload with
  | .var _ => throw (.instruction id)
  | _ =>
    if s.block ≠ noBlock ∨ s.dead then throw (.instruction id)
    f.updateSlot id fun s => { s with block := b }

def append (f : Func) (b : BlockId) (id : Id) : Except Fault Func := do
  (← f.place b id).updateCode b (·.push id)

def pos (f : Func) (id : Id) : Except Fault (BlockId × Nat) := do
  let b := (← f.slot id).block
  if b = noBlock then throw (.instruction id)
  match (← f.code b).idxOf? id with
  | some i => return (b, i)
  | none => throw (.instruction id)

def insertAt (f : Func) (b : BlockId) (i : Nat) (id : Id) : Except Fault Func := do
  (← f.place b id).updateCode b (·.insertIdxIfInBounds i id)

def insertBefore (f : Func) (anchor id : Id) : Except Fault Func := do
  let (b, i) ← f.pos anchor
  f.insertAt b i id

def insertAfter (f : Func) (anchor id : Id) : Except Fault Func := do
  let (b, i) ← f.pos anchor
  f.insertAt b (i + 1) id

def detach (f : Func) (id : Id) : Except Fault Func := do
  let (b, i) ← f.pos id
  (← f.updateCode b (·.eraseIdxIfInBounds i)).updateSlot id fun s => { s with block := noBlock }

def erase (f : Func) (id : Id) : Except Fault Func := do
  let s ← f.slot id
  if s.refs ≠ [] then throw (.instruction id)
  let f ← s.payload.operands.foldlM (fun f op => f.removeRef op id) f
  let f ← if s.block ≠ noBlock then f.detach id else pure f
  f.updateSlot id fun s => { s with dead := true }

def replaceFirst (old new : Id) : List Id → List Id
  | [] => []
  | x :: rest => if x = old then new :: rest else x :: replaceFirst old new rest

/-- Redirect one use of `old` by `user` to `new`. -/
def redirect (f : Func) (old new user : Id) : Except Fault Func := do
  let x ← f.payload user
  if old ∈ x.operands then
    let ops := replaceFirst old new x.operands
    let f ← f.updateSlot user fun s => { s with payload := x.withOperands ops }
    f.addRef new user
  else return f

def replaceUses (f : Func) (old new : Id) : Except Fault Func := do
  let users ← f.refs old
  let f ← f.updateSlot old fun s => { s with refs := [] }
  users.foldlM (fun f u => f.redirect old new u) f

def moveRefs (f : Func) (old new user : Id) : Nat → Except Fault Func
  | 0 => .ok f
  | n + 1 => do (← (← f.removeRef old user).addRef new user).moveRefs old new user n

/-- Redirect the operands of `user` that are `old` to `new`. -/
def replaceUse (f : Func) (user old new : Id) : Except Fault Func := do
  let x ← f.payload user
  let ops := x.operands.map fun op => if op = old then new else op
  let f ← f.updateSlot user fun s => { s with payload := x.withOperands ops }
  f.moveRefs old new user (x.operands.count old)

end Func

namespace Program

def func (p : Program) (k : Int) : Except Fault Func := lookup p.funcs k

def update (p : Program) (k : Int) (g : Func → Except Fault Func) : Except Fault Program := do
  let f ← g (← p.func k)
  return { p with funcs := p.funcs.setIfInBounds k.toNat f }

/-- Allocate an instruction in function `k`. A call is also recorded at its callee. -/
def new (p : Program) (k : Nat) (loc : Position) (x : Payload) : Except Fault (Id × Program) := do
  let (id, f) ← (← p.func k).new loc x
  let p := { p with funcs := p.funcs.setIfInBounds k f }
  match x with
  | .call callee _ =>
    return (id, ← p.update callee fun g => .ok { g with callers := g.callers ++ [⟨k, id⟩] })
  | _ => return (id, p)

end Program

end Accumulator.Flow
