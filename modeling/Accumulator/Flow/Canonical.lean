import Accumulator.Flow.Walk

/-!
# Testable comparisons

The machine can test `ne`, `gt` and `lt`. The other comparisons are replaced by their complements,
and the branches on them exchange their targets. Comparisons may only be tested by branches.
-/

namespace Accumulator.Flow

namespace Func

def swapTargets (f : Func) (id : Id) : Except Fault Func :=
  f.updateSlot id fun s =>
    match s.payload with
    | .branchIf t c a b => { s with payload := .branchIf t c b a }
    | _ => s

def checkBranch (f : Func) (id : Id) : Except Fault Unit := do
  match ← f.payload id with
  | .branchIf _ _ _ _ => return ()
  | _ => throw (.instruction id)

/-- Replace a comparison by its complement if the machine cannot test it. -/
def complementAt (f : Func) (id : Id) : Except Fault (Option Func) := do
  let s ← f.slot id
  match s.payload with
  | .alu op l r =>
    if op.isRelational then
      s.refs.forM f.checkBranch
      match op.complement? with
      | none => return none
      | some op' =>
        let f ← f.updateSlot id fun s => { s with payload := .alu op' l r }
        return some (← s.refs.foldlM swapTargets f)
    else return none
  | _ => return none

def canonicalizeBlock (st : Nat × Func) (b : BlockId) : Except Fault (Nat × Func) := do
  (← st.2.code b).toList.foldlM (fun (n, f) id => do
    match ← f.complementAt id with
    | some f => return (n + 1, f)
    | none => return (n, f)) st

def canonicalize (f : Func) : Except Fault (Nat × Func) :=
  f.walk (fun st => st.2) canonicalizeBlock (0, f)

end Func

end Accumulator.Flow
