import Accumulator.Fault
import Accumulator.Yaml.Node

/-!
# Reading records

A mapping can be read as a record with known fields: each field has a reader, other keys are
ignored, and a merge key takes over fields of other mappings that are not given. A value of the
wrong kind is noted and reading goes on, so that a malformed part found later still counts.
-/

namespace Accumulator.Yaml

/-- Why a document cannot be read. -/
inductive LoadError where
  /-- The text is no document, or a scalar does not fit its tag. -/
  | malformed
  /-- The document is well formed but of the wrong shape. -/
  | mismatch
  deriving DecidableEq, Repr

inductive Halt where
  | malformed
  | fault (f : Fault)
  deriving DecidableEq, Repr

/-- The state of reading. The numbers of nodes read, in all and through aliases, bound the growth
of a document through aliases. -/
structure Loader where
  anchors : Array Node
  visits : Nat := 0
  aliased : Nat := 0
  depth : Nat := 0
  /-- The aliases that are being followed. -/
  active : List Position := []
  mismatched : Bool := false
  /-- The keys that are given, while merged mappings are read. -/
  given : Option (List Value) := none

abbrev Load := StateT Loader (Except Halt)

namespace Load

def malformed {α : Type} : Load α := throw .malformed

def mismatch {α : Type} : Load (Option α) := do
  modify fun s => { s with mismatched := true }
  return none

/-- The share of visits, in hundredths of a percent, that may come through aliases. -/
def allowedShare (visits : Nat) : Nat :=
  if visits ≤ 400000 then 9900
  else if 4000000 ≤ visits then 1000
  else 9900 - 8900 * (visits - 400000) / 3600000

def count : Load Unit := do
  modify fun s => { s with
    visits := s.visits + 1
    aliased := if 0 < s.depth then s.aliased + 1 else s.aliased }
  let s ← get
  if 100 < s.aliased ∧ 1000 < s.visits ∧ allowedShare s.visits * s.visits < s.aliased * 10000 then
    malformed

/-- Visit a node, or the one that it is an alias of. A node cannot contain itself. -/
def visit {α : Type} (read : Node → Load α) (n : Node) : Load α := do
  count
  match n with
  | .alias pos _ k =>
    let s ← get
    if pos ∈ s.active then malformed
    else
      set { s with active := pos :: s.active, depth := s.depth + 1 }
      count
      let a ← read ((s.anchors[k]?).getD default)
      modify fun s => { s with active := s.active.erase pos, depth := s.depth - 1 }
      return a
  | n => read n

def scalar (tag text : String) : Load Value :=
  if tag = "!!binary" then
    match Value.binary? text with
    | some s => return .text s
    | none => malformed
  else
    match Value.resolve? tag text with
    | some v => return v
    | none => malformed

/-- Read a scalar other than null. Null is nothing, and collections are of the wrong kind. -/
def scalarWith {α : Type} (read : String → Value → Load (Option α)) : Node → Load (Option α)
  | .scalar _ tag text => do
    match ← scalar tag text with
    | .null => return none
    | v => read text v
  | _ => mismatch

def string : Node → Load (Option Bytes)
  | .scalar pos tag text =>
    scalarWith (fun text v =>
      match v with
      | .text s => return some s
      | _ => return some (Text.bytes text)) (.scalar pos tag text)
  | _ => mismatch

def boolWord? (s : Bytes) : Option Bool :=
  if (["y", "Y", "yes", "Yes", "YES", "on", "On", "ON"].map Text.bytes).contains s then some true
  else if (["n", "N", "no", "No", "NO", "off", "Off", "OFF"].map Text.bytes).contains s then
    some false
  else none

def bool : Node → Load (Option Bool) :=
  scalarWith fun _ v =>
    match v with
    | .bool b => return some b
    | .text s =>
      match boolWord? s with
      | some b => return some b
      | none => mismatch
    | _ => mismatch

/-- An integer of 64 bits. A fraction is cut off, and what is too small becomes the least one. -/
def int : Node → Load (Option Int) :=
  scalarWith fun _ v =>
    match v with
    | .int i => if i < Value.signedLimit then return some i else mismatch
    | .real (.finite w) =>
      if Value.signedLimit < w then mismatch
      else if w = Value.signedLimit ∨ w < -Value.signedLimit then return some (-Value.signedLimit)
      else return some w
    | .real (.infinite true) => return some (-Value.signedLimit)
    | _ => mismatch

def list {α : Type} (read : Node → Load (Option α)) : Node → Load (Option (List α))
  | .sequence _ _ items => do return some ((← items.mapM read).filterMap id)
  | .mapping _ _ _ => mismatch
  | .scalar _ tag text => do
    match ← scalar tag text with
    | .null => return some []
    | _ => mismatch
  | .alias _ _ _ => mismatch

def sameKey : Node → Node → Bool
  | .scalar _ _ s, .scalar _ _ t => s = t
  | .alias _ s _, .alias _ t _ => s = t
  | .sequence _ _ _, .sequence _ _ _ => true
  | .mapping _ _ _, .mapping _ _ _ => true
  | _, _ => false

def hasRepeatedKey : List (Node × Node) → Bool
  | [] => false
  | (k, _) :: rest => rest.any (fun e => sameKey k e.1) || hasRepeatedKey rest

def isMergeKey : Node → Bool
  | .scalar _ tag text => tag = "!!merge" && text = "<<"
  | _ => false

/-- Whether a key is to be taken, while merged mappings are read: the first to give it wins.
Numbers with a fraction and timestamps are not compared. -/
def takeKey (given : Option (List Value)) (key : Value) : Bool × Option (List Value) :=
  match given, key with
  | none, _ => (true, none)
  | some l, .real _ | some l, .time => (true, some l)
  | some l, key => if l.contains key then (false, some l) else (true, some (key :: l))

/-- What stands where a key can be: a scalar, or a collection, which cannot be compared. -/
inductive Key where
  | scalar (v : Value)
  | collection

/-- Note the keys of a mapping as given. A collection as a key is a fault, unless it cannot be
read. -/
def giveKeys (read : Node → Load (Option Key)) : List (Node × Node) → Load Unit
  | [] => return ()
  | (k, _) :: rest => do
    match ← visit read k with
    | none => pure ()
    | some .collection => throw (.fault .outOfRange)
    | some (.scalar v) => modify fun l => { l with given := (takeKey l.given v).2 }
    giveKeys read rest

def target (n : Node) : Load Node := do
  match n with
  | .alias _ _ k => return ((← get).anchors[k]?).getD default
  | n => return n

def isMapping (n : Node) : Load Bool := do
  match ← target n with
  | .mapping _ _ _ => return true
  | _ => return false

def mergeSources : Node → List Node
  | .sequence _ _ items => items
  | n => [n]

/-- Read the entries of a mapping, and then those of the mappings that it merges. Nothing is read if
a key is repeated. -/
def mapping {σ : Type} (readKey : Node → Load (Option Key))
    (entries : List (Node × Node) → Option (List Value) → σ → Load (σ × Option (List Value))) :
    Nat → σ → Node → Load (Option σ)
  | 0, _, _ => malformed
  | fuel + 1, s, n =>
    match n with
    | .mapping _ _ es => do
      if hasRepeatedKey es then mismatch
      else
        let given := (← get).given
        modify fun l => { l with given := none }
        let (s, given) ← entries es given s
        modify fun l => { l with given := given }
        match es.reverse.find? (fun e => isMergeKey e.1) with
        | none => return some s
        | some (_, source) =>
          if given.isNone then
            modify fun l => { l with given := some [] }
            giveKeys readKey es
          let s ← (mergeSources source).foldlM (fun s n => do
            if ← isMapping n then return (← visit (mapping readKey entries fuel s) n).getD s
            else malformed) s
          modify fun l => { l with given := given.map fun _ => l.given.getD [] }
          return some s
    | .scalar _ tag text => do
      match ← scalar tag text with
      | .null => return none
      | _ => mismatch
    | _ => mismatch

def anyEntries (readKey read : Node → Load (Option Key)) :
    List (Node × Node) → Option (List Value) → Unit → Load (Unit × Option (List Value))
  | [], given, _ => return ((), given)
  | (k, v) :: rest, given, _ => do
    if isMergeKey k then anyEntries readKey read rest given ()
    else
      match ← visit readKey k with
      | none => anyEntries readKey read rest given ()
      | some .collection => if given.isSome then throw (.fault .outOfRange) else malformed
      | some (.scalar key) =>
        let (taken, given) := takeKey given key
        if taken then
          let _ ← visit read v
        anyEntries readKey read rest given ()

def isTextKey (n : Node) : Load Bool := do
  match ← target n with
  | .scalar _ tag _ | .sequence _ tag _ | .mapping _ tag _ => return tag = "!!str" || tag = "!!merge"
  | .alias _ _ _ => return false

/-- Read a node whatever it is. In a mapping whose keys are all texts they are read as such. -/
def any : Nat → Node → Load (Option Key)
  | 0, _ => malformed
  | fuel + 1, n =>
    match n with
    | .scalar _ tag text => do return some (.scalar (← scalar tag text))
    | .sequence _ _ items => do
      items.forM fun n => discard (visit (any fuel) n)
      return some .collection
    | .mapping _ _ es => do
      let readKey := if ← es.allM (fun e => isTextKey e.1) then
          (fun n => do return (← string n).map fun s => .scalar (.text s))
        else any fuel
      return (← mapping (any fuel) (anyEntries readKey (any fuel)) fuel () n).map fun _ => .collection
    | .alias _ _ _ => mismatch

structure Field (σ : Type) where
  name : String
  put : Node → σ → Load σ

def field {σ α : Type} (name : String) (read : Node → Load (Option α)) (set : σ → α → σ) :
    Field σ :=
  { name := name
    put := fun n s => do
      match ← visit read n with
      | some a => return set s a
      | none => return s }

def fieldEntries {σ : Type} (fields : List (Field σ)) :
    List Bytes → List (Node × Node) → Option (List Value) → σ → Load (σ × Option (List Value))
  | _, [], given, s => return (s, given)
  | done, (k, v) :: rest, given, s => do
    if isMergeKey k then fieldEntries fields done rest given s
    else
      match ← visit string k with
      | none => fieldEntries fields done rest given s
      | some name =>
        let (taken, given) := takeKey given (.text name)
        match taken, fields.find? (Text.bytes ·.name == name) with
        | true, some f =>
          if done.contains name then
            modify fun s => { s with mismatched := true }
            fieldEntries fields done rest given s
          else fieldEntries fields (name :: done) rest given (← f.put v s)
        | _, _ => fieldEntries fields done rest given s

def record {σ : Type} (fields : List (Field σ)) (fuel : Nat) (s : σ) (n : Node) :
    Load (Option σ) :=
  mapping (any fuel) (fieldEntries fields []) fuel s n

end Load

end Accumulator.Yaml
