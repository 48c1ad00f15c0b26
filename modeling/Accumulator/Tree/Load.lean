import Accumulator.Tree.Decode
import Accumulator.Yaml.Record

/-!
# Reading programs

A program is written as a document with the fields of a raw program.
-/

namespace Accumulator.Tree

open Yaml (Document Halt Load LoadError Loader)

mutual

def Node.ofYaml : Yaml.Node → Node
  | .scalar pos _ text => .scalar pos (Text.bytes text)
  | .sequence pos _ items => .sequence pos (ofItems items)
  | .mapping pos _ es => .mapping pos (ofEntries es)
  | .alias pos name _ => .alias pos (Text.bytes name)

def Node.ofItems : List Yaml.Node → List Node
  | [] => []
  | n :: rest => .ofYaml n :: ofItems rest

def Node.ofEntries : List (Yaml.Node × Yaml.Node) → List (Node × Node)
  | [] => []
  | (k, v) :: rest => (.ofYaml k, .ofYaml v) :: ofEntries rest

end

namespace RawFile

def paramFields : List (Load.Field RawParam) :=
  [Load.field "name" Load.string fun p s => { p with name := s },
    Load.field "value" Load.bool fun p b => { p with value := b },
    Load.field "array" Load.bool fun p b => { p with array := b }]

def localFields : List (Load.Field RawLocal) :=
  [Load.field "name" Load.string fun v s => { v with name := s },
    Load.field "size" Load.int fun v i => { v with size := i }]

/-- Keep a node as it is written, be it an alias. -/
def asWritten (n : Yaml.Node) : Load (Option Node) := do
  Load.count
  return some (.ofYaml n)

def procFields (fuel : Nat) : List (Load.Field RawProc) :=
  [Load.field "name" Load.string fun p s => { p with name := s },
    Load.field "params" (Load.list (Load.visit (Load.record paramFields fuel {})))
      fun p l => { p with params := l },
    Load.field "locals" (Load.list (Load.visit (Load.record localFields fuel {})))
      fun p l => { p with locals := l },
    Load.field "body" (Load.list asWritten) fun p l => { p with body := l }]

/-- Read a procedure on its own, with a fresh count of visits. Null is an empty procedure. -/
def proc (fuel : Nat) (n : Yaml.Node) : Load (Option (Option RawProc)) := do
  let alone : Load (Option (Option RawProc)) := do
    let fresh : Loader := { anchors := (← get).anchors }
    match (Load.visit (Load.record (procFields fuel) fuel { pos := n.pos }) n).run fresh with
    | .error h => throw h
    | .ok (r, l) => if l.mismatched then Load.mismatch else return r.map some
  match n with
  | .scalar _ tag text =>
    if tag = "!!null" then
      match ← Load.scalar tag text with
      | .null => return some none
      | _ => Load.malformed
    else alone
  | .sequence _ tag _ | .mapping _ tag _ => if tag = "!!null" then Load.mismatch else alone
  | .alias _ _ _ => alone

def fields (fuel : Nat) : List (Load.Field RawFile) :=
  [Load.field "procedures" (Load.list (Load.visit (proc fuel)))
      fun f l => { f with procedures := l },
    Load.field "main" (proc fuel) fun f p => { f with main := p }]

/-- The raw program of a document. An empty one is an empty program. -/
def ofDocument (d : Document) (fuel : Nat) : Except Halt (Except LoadError RawFile) := do
  let start : Loader := { anchors := d.anchors, visits := 1 }
  let (r, l) ← (Load.visit (Load.record (fields fuel) fuel {}) d.root).run start
  if l.mismatched then return .error .mismatch else return .ok (r.getD {})

def read (bytes : Bytes) : Except Fault (Except LoadError RawFile) :=
  match Yaml.parse? bytes with
  | none => .ok (.error .malformed)
  | some none => .ok (.ok {})
  | some (some d) =>
    match ofDocument d ((bytes.length + 2) * (bytes.length + 2)) with
    | .ok r => .ok r
    | .error .malformed => .ok (.error .malformed)
    | .error (.fault f) => .error f

end RawFile

def decode : Bytes → Except Fault (Except (ReadError LoadError) File) := decodeWith RawFile.read

end Accumulator.Tree
