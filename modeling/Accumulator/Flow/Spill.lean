import Accumulator.BitSet
import Accumulator.Flow.Check
import Accumulator.Flow.Edit

/-!
# Spilling

After `Func.spillAll` no value stays in a register from one instruction to another: each producer
stores its result into a variable of its own, and each user loads it right before the use.
`Func.checkSpilled` says whether a function has this form.
-/

namespace Accumulator.Flow

def Payload.producesValue : Payload → Except Fault Bool
  | .alu _ _ _ | .const _ | .read | .load _ | .loadIndirect _ | .loadPair _ | .elemAddr _ _
  | .elemAddrIndirect _ _ => .ok true
  | .store _ _ | .storeIndirect _ _ | .write _ | .branch _ | .branchIf _ _ _ _ | .call _ _ | .ret
  | .stop => .ok false
  | .var _ => .error .misplacedVariable

def spillVariable : Variable :=
  { name := Text.bytes "spill", kind := .localVar, size := 1, spill := true }

namespace Func

def reload (f : Func) (id v user : Id) : Except Fault (Id × Func) := do
  let (fill, f) ← f.new (← f.slot user).loc (.load v)
  let f ← f.insertBefore user fill
  return (fill, ← f.replaceUse user id fill)

/-- Spill one value. The loads made for it are added to `fills`. -/
def spill (f : Func) (fills : BitSet) (id : Id) : Except Fault (Func × BitSet) := do
  let s ← f.slot id
  let (v, f) := f.newVar s.loc spillVariable
  let (f, fills) ← s.refs.eraseDups.foldlM (fun (f, fills) user => do
    let (fill, f) ← f.reload id v user
    return (f, fills.insert fill.toNat)) (f, fills)
  let (st, f) ← f.new s.loc (.store v id)
  return (← f.insertAfter id st, fills)

/-- A function in the course of spilling: the loads made so far and the number of spilled values. -/
structure Spilling where
  func : Func
  fills : BitSet := {}
  count : Nat := 0

def spillAt (st : Spilling) (id : Id) : Except Fault Spilling := do
  if id < 0 then throw (.instruction id)
  if st.fills.contains id.toNat then return st
  if ← (← st.func.payload id).producesValue then
    let (f, fills) ← st.func.spill st.fills id
    return { func := f, fills := fills, count := st.count + 1 }
  else return st

def spillBlock (st : Spilling) (b : BlockId) : Except Fault Spilling := do
  (← st.func.code b).toList.foldlM spillAt st

def spillAll (f : Func) : Except Fault (Nat × Func) := do
  let st ← f.walk (·.func) spillBlock { func := f }
  return (st.count, st.func)

end Func

inductive SpillDefect where
  | users (id : Id) (count : Nat)
  | notSpilled (id : Id)
  | storedTwice (id v : Id)
  | usedBy (id v : Id) (x : Payload)
  deriving DecidableEq, Repr

def SpillDefect.message : SpillDefect → String
  | .users id n => s!"instruction {id}: {n} users"
  | .notSpilled id => s!"instruction {id}: not spilled"
  | .storedTwice id v => s!"instruction {id}: spill variable {v} stored twice"
  | .usedBy id v x => s!"instruction {id}: spill variable {v} used by {x.typeName}"

namespace Func

def isReload (f : Func) (id : Id) : Except Fault Bool := do
  match ← f.payload id with
  | .load src => return (← f.var? src).any (·.spill)
  | _ => return false

def checkSpillUser (f : Func) (id v st user : Id) : ExceptT SpillDefect (Except Fault) Unit := do
  match ← f.payload user with
  | .store _ _ => if user ≠ st then throw (.storedTwice id v)
  | .load _ => pure ()
  | x => throw (.usedBy id v x)

def checkSpilledAt (f : Func) (id : Id) : ExceptT SpillDefect (Except Fault) Unit := do
  if !(← (← f.payload id).producesValue) then return
  if ← f.isReload id then return
  match ← f.refs id with
  | [st] =>
    match ← f.payload st with
    | .store v src =>
      if src ≠ id then throw (.notSpilled id)
      if (← f.var? v).isNone then throw (.notSpilled id)
      (← f.refs v).forM (f.checkSpillUser id v st)
    | _ => throw (.notSpilled id)
  | refs => throw (.users id refs.length)

/-- The first value of a reachable block that is not spilled, if there is one. The walk goes on to
its end in any case. -/
def checkSpilled (f : Func) : Except Fault (Except SpillDefect Unit) :=
  f.walk (fun _ => f) (fun found b => do
    let code ← f.code b
    match found with
    | .error e => return .error e
    | .ok () => (code.toList.forM f.checkSpilledAt).run) (.ok ())

end Func

end Accumulator.Flow
