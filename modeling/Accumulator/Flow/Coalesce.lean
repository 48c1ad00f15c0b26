import Accumulator.Flow.Edit
import Accumulator.Flow.Walk

/-!
# Coalescing

Spilling stores each value and loads it again. `Func.coalesce` removes such pairs where the value
is still in a register, by a list of rules on neighbouring instructions of a block, until no rule
applies, and drops the local variables that lost all their users. A rule applies only if the
variable has exactly the users that the rule names. Every application takes an instruction out of the
block, which bounds the number of applications.
-/

namespace Accumulator.Flow

namespace Func

def loadAt (f : Func) (code : Array Id) (i : Nat) : Except Fault (Option (Id × Id)) := do
  match code[i]? with
  | none => return none
  | some id =>
    match ← f.payload id with
    | .load src => return some (id, src)
    | _ => return none

def storeAt (f : Func) (code : Array Id) (i : Nat) : Except Fault (Option (Id × Id × Id)) := do
  match code[i]? with
  | none => return none
  | some id =>
    match ← f.payload id with
    | .store dst src => return some (id, dst, src)
    | _ => return none

/-- Whether a slot is a variable of the frame with exactly `n` users. -/
def hasUsers (f : Func) (v : Id) (n : Nat) : Except Fault Bool := do
  match ← f.var? v with
  | none => return false
  | some x => return !x.byRef && (← f.refs v).length == n

/-- Whether a value is computed right before an index of the code, so that it is still in the
accumulator. -/
def producedBefore (code : Array Id) : Nat → Id → Bool
  | 0, _ => false
  | i + 1, x => code[i]? == some x

abbrev Rule := Func → Array Id → Nat → Except Fault (Option Func)

/-- `l = load x; store v, l; m = load v`: the users of `m` take `l`. -/
def forward : Rule := fun f code i => do
  let l? ← f.loadAt code i
  let s? ← f.storeAt code (i + 1)
  let m? ← f.loadAt code (i + 2)
  match l?, s?, m? with
  | some (l, _), some (s, v, src), some (m, reloaded) =>
    if src = l ∧ reloaded = v then
      if ← f.hasUsers v 2 then
        return some (← (← (← f.replaceUses m l).erase m).erase s)
    return none
  | _, _, _ => return none

/-- `l1 = load x; store v, l1; l2 = load y; l3 = load v`: becomes `l2; l1`, and the users of `l3`
take `l1`. Both registers end up with the same values. -/
def reorder : Rule := fun f code i => do
  let l1? ← f.loadAt code i
  let s? ← f.storeAt code (i + 1)
  let l2? ← f.loadAt code (i + 2)
  let l3? ← f.loadAt code (i + 3)
  match l1?, s?, l2?, l3? with
  | some (l1, x), some (s, v, src), some (l2, y), some (l3, reloaded) =>
    if src = l1 ∧ reloaded = v ∧ y ≠ v then
      if ← f.hasUsers v 2 then
        if (← f.var? x).isSome then
          if (← f.var? y).isSome then
            let f ← (← (← f.replaceUses l3 l1).erase l3).erase s
            return some (← (← f.detach l1).insertAfter l2 l1)
    return none
  | _, _, _, _ => return none

/-- `x; store v, x; l = load v; store w, l`: stores `x` to `w`. -/
def storeLoadStore : Rule := fun f code i => do
  let s? ← f.storeAt code i
  let l? ← f.loadAt code (i + 1)
  let t? ← f.storeAt code (i + 2)
  match s?, l?, t? with
  | some (s, v, x), some (l, reloaded), some (_, w, src) =>
    if producedBefore code i x ∧ reloaded = v ∧ src = l then
      if (← f.var? w).isSome then
        if ← f.hasUsers v 2 then
          return some (← (← (← f.replaceUses l x).erase l).erase s)
    return none
  | _, _, _ => return none

/-- `x; store v, x; l = load v`: the users of `l` take `x`. -/
def roundTrip : Rule := fun f code i => do
  let s? ← f.storeAt code i
  let l? ← f.loadAt code (i + 1)
  match s?, l? with
  | some (s, v, x), some (l, reloaded) =>
    if producedBefore code i x ∧ reloaded = v then
      if ← f.hasUsers v 2 then
        return some (← (← (← f.replaceUses l x).erase l).erase s)
    return none
  | _, _ => return none

/-- `x; store v, x; a = load m; b = load v`: becomes `x; load_pair m`, the users of `a` take the
pair and those of `b` take `x`. -/
def loadPair : Rule := fun f code i => do
  let s? ← f.storeAt code i
  let a? ← f.loadAt code (i + 1)
  let b? ← f.loadAt code (i + 2)
  match s?, a?, b? with
  | some (s, v, x), some (a, m), some (b, reloaded) =>
    if producedBefore code i x ∧ reloaded = v ∧ m ≠ v then
      if (← f.var? m).isSome then
        if ← f.hasUsers v 2 then
          let (p, f) ← f.new (← f.slot a).loc (.loadPair m)
          let f ← f.insertBefore b p
          let f ← (← f.replaceUses b x).replaceUses a p
          return some (← (← (← f.erase a).erase b).erase s)
    return none
  | _, _, _ => return none

/-- `x; store v, x; a = load v; b = load v`: the loads become one `load_pair v`, the users of `a`
take the pair and those of `b` take `x`. -/
def doubleReload : Rule := fun f code i => do
  let s? ← f.storeAt code i
  let a? ← f.loadAt code (i + 1)
  let b? ← f.loadAt code (i + 2)
  match s?, a?, b? with
  | some (s, v, x), some (a, first), some (b, second) =>
    if producedBefore code i x ∧ first = v ∧ second = v then
      if ← f.hasUsers v 3 then
        let (p, f) ← f.new (← f.slot a).loc (.loadPair v)
        let f ← (← f.insertBefore a p).replaceUses a p
        match ← f.payload s with
        | .store _ x =>
          let f ← f.replaceUses b x
          return some (← (← f.erase a).erase b)
        | _ => return none
    return none
  | _, _, _ => return none

def rules : List Rule :=
  [forward, reorder, storeLoadStore, roundTrip, loadPair, doubleReload]

def applyRule (f : Func) (code : Array Id) (i : Nat) : List Rule → Except Fault (Option Func)
  | [] => .ok none
  | r :: rest => do
    match ← r f code i with
    | some f => return some f
    | none => f.applyRule code i rest

/-- Apply rules in a block from an index on, at the same index again after each application. -/
def sweep (b : BlockId) : Nat → Nat → Nat × Func → Except Fault (Nat × Func)
  | 0, _, st => .ok st
  | fuel + 1, i, (n, f) => do
    let code ← f.code b
    if i < code.size then
      match ← f.applyRule code i rules with
      | some f => sweep b fuel i (n + 1, f)
      | none => sweep b fuel (i + 1) (n, f)
    else return (n, f)

def coalesceBlock (st : Nat × Func) (b : BlockId) : Except Fault (Nat × Func) := do
  let code ← st.2.code b
  sweep b (code.size + 1) 0 st

/-- Walk the blocks until a walk applies no rule. -/
def coalesceRounds : Nat → Nat × Func → Except Fault (Nat × Func)
  | 0, st => .ok st
  | fuel + 1, (n, f) => do
    let (m, f) ← f.walk (fun st => st.2) coalesceBlock (n, f)
    if m = n then return (m, f) else coalesceRounds fuel (m, f)

def pruneLocals (f : Func) : Except Fault Func := do
  let (f, kept) ← f.locals.foldlM (fun (f, kept) id => do
    if (← f.refs id).isEmpty then return (← f.erase id, kept)
    else return (f, kept ++ [id])) (f, [])
  return { f with locals := kept }

def coalesce (f : Func) : Except Fault (Nat × Func) := do
  let (n, f) ← coalesceRounds (f.size + 1) (0, f)
  return (n, ← f.pruneLocals)

end Func

end Accumulator.Flow
