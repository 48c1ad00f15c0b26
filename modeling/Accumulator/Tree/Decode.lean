import Accumulator.Text.Decimal
import Accumulator.Text.Quoted
import Accumulator.Tree.Basic
import Accumulator.Tree.Raw

/-!
# Linking programs

A written program names its variables and procedures; linking it turns the names into declarations. A
procedure can only call those before it. What cannot be linked is an error with its place.
-/

namespace Accumulator.Tree

open Text (bytes)

inductive DecodeError where
  | noMain
  | unnamedProc (pos : Position)
  | redeclaredProc (pos : Position)
  | mainParams (pos : Position)
  | arrayByValue (pos : Position) (name : Bytes)
  | negativeSize (pos : Position) (name : Bytes)
  | unnamedVariable
  | redeclared (name : Bytes)
  | listExpected (pos : Position)
  | mappingExpected (pos : Position)
  | undefinedProc (pos : Position) (name : Bytes)
  | argumentsExpected (pos : Position)
  | argumentNotVariable (pos : Position)
  | argumentCount (pos : Position) (name : Bytes) (expected got : Nat)
  | unknownStatement (pos : Position)
  | notAssignable (pos : Position)
  | expressionMissing
  | expressionExpected (pos : Position)
  | undefinedVariable (pos : Position) (name : Bytes)
  | undefinedArray (pos : Position) (name : Bytes)
  | unknownOperator (pos : Position) (symbol : Bytes)
  | misplacedComparison (pos : Position) (symbol : Bytes)
  /-- An error in a named part. -/
  | within (part : Bytes) (e : DecodeError)
  deriving DecidableEq, Repr

def DecodeError.message : DecodeError → Bytes
  | .noMain => bytes "no main program"
  | .unnamedProc p => bytes s!"{p.render}: unnamed procedure"
  | .redeclaredProc p => bytes s!"{p.render}: procedure redeclared"
  | .mainParams p => bytes s!"{p.render}: main program takes no parameters"
  | .arrayByValue p name =>
    bytes s!"{p.render}: array parameter " ++ name ++ bytes " passed by value"
  | .negativeSize p name => bytes s!"{p.render}: negative size of " ++ name
  | .unnamedVariable => bytes "unnamed variable"
  | .redeclared name => name ++ bytes " redeclared"
  | .listExpected p => bytes s!"{p.render}: statement list expected"
  | .mappingExpected p => bytes s!"{p.render}: mapping expected"
  | .undefinedProc p name => bytes s!"{p.render}: undefined procedure {Text.quote name}"
  | .argumentsExpected p => bytes s!"{p.render}: argument list expected"
  | .argumentNotVariable p => bytes s!"{p.render}: argument must be a variable"
  | .argumentCount p name expected got =>
    bytes s!"{p.render}: " ++ name ++ bytes s!" takes {expected} arguments, got {got}"
  | .unknownStatement p => bytes s!"{p.render}: unknown statement"
  | .notAssignable p => bytes s!"{p.render}: not assignable"
  | .expressionMissing => bytes "expression expected"
  | .expressionExpected p => bytes s!"{p.render}: expression expected"
  | .undefinedVariable p name => bytes s!"{p.render}: undefined variable {Text.quote name}"
  | .undefinedArray p name => bytes s!"{p.render}: undefined array {Text.quote name}"
  | .unknownOperator p symbol => bytes s!"{p.render}: unknown operator {Text.quote symbol}"
  | .misplacedComparison p symbol =>
    bytes s!"{p.render}: comparison {Text.quote symbol} outside of a condition"
  | .within part e => part ++ bytes ": " ++ e.message

def inPart {α : Type} (part : Bytes) : Except DecodeError α → Except DecodeError α
  | .ok a => .ok a
  | .error e => .error (.within part e)

/-- The value of the last entry with a key, which is smaller than the list of entries. -/
def lastUnder? (key : String) :
    (es : List (Node × Node)) → Option { v : Node // sizeOf v < sizeOf es }
  | [] => none
  | (k, v) :: rest =>
    match lastUnder? key rest with
    | some ⟨w, h⟩ => some ⟨w, by simp; omega⟩
    | none => if k.text = bytes key then some ⟨v, by simp; omega⟩ else none

structure Callee where
  name : Bytes
  number : Nat
  arity : Nat
  deriving Repr

structure Names where
  procs : List Callee
  vars : List (Bytes × Ref)

namespace Names

def callee? (c : Names) (name : Bytes) : Option Callee := c.procs.find? (·.name == name)

def ref? (c : Names) (name : Bytes) : Option Ref := c.vars.lookup name

/-- Read a value. A comparison is allowed only where a condition is expected, and only on top. -/
def value (c : Names) (isCondition : Bool) (n : Node) : Except DecodeError Expr :=
  match n with
  | .scalar pos text =>
    match Text.readWord text with
    | .ok v => .ok (.number pos v)
    | .error _ =>
      match c.ref? text with
      | some ref => .ok (.ident pos ref)
      | none => .error (.undefinedVariable pos text)
  | .mapping pos es =>
    match lastUnder? "index" es with
    | some ⟨array, _⟩ =>
      match c.ref? array.text with
      | none => .error (.undefinedArray pos array.text)
      | some ref => do
        let offset ← inPart (bytes "index") <|
          match lastUnder? "at" es with
          | some ⟨v, _⟩ => c.value false v
          | none => .error .expressionMissing
        return .index pos ref offset
    | none =>
      match lastUnder? "op" es with
      | none => .error (.expressionExpected pos)
      | some ⟨o, _⟩ =>
        match Op.ofSymbol? o.text with
        | none => .error (.unknownOperator pos o.text)
        | some op =>
          if op.isRelational && !isCondition then .error (.misplacedComparison pos o.text)
          else do
            let l ← inPart (bytes "lhs") <|
              match lastUnder? "l" es with
              | some ⟨v, _⟩ => c.value false v
              | none => .error .expressionMissing
            let r ← inPart (bytes "rhs") <|
              match lastUnder? "r" es with
              | some ⟨v, _⟩ => c.value false v
              | none => .error .expressionMissing
            return .binary pos op l r
  | .sequence pos _ | .alias pos _ => .error (.expressionExpected pos)
  termination_by sizeOf n

def valueOf (c : Names) (isCondition : Bool) : Option Node → Except DecodeError Expr
  | none => .error .expressionMissing
  | some n => c.value isCondition n

def target (c : Names) (n : Node) : Except DecodeError Expr := do
  match ← c.value false n with
  | .ident pos ref => return .ident pos ref
  | .index pos ref offset => return .index pos ref offset
  | _ => throw (.notAssignable n.pos)

def argument (c : Names) (n : Node) : Except DecodeError Expr := do
  match ← inPart (bytes "argument") (c.value false n) with
  | .ident pos ref => return .ident pos ref
  | _ => throw (.argumentNotVariable n.pos)

def arguments (c : Names) : Option Node → Except DecodeError (List Expr)
  | none => .ok []
  | some (.sequence _ items) => items.mapM c.argument
  | some n => .error (.argumentsExpected n.pos)

def call (c : Names) (pos : Position) (name : Bytes) (args : Option Node) :
    Except DecodeError Stmt :=
  match c.callee? name with
  | none => .error (.undefinedProc pos name)
  | some p => do
    let args ← c.arguments args
    if args.length ≠ p.arity then throw (.argumentCount pos name p.arity args.length)
    return .call pos (some p.number) args

theorem sizeOf_entries_lt (pos : Position) (es : List (Node × Node)) :
    sizeOf es < sizeOf (Node.mapping pos es) := by
  simp only [Node.mapping.sizeOf_spec]
  omega

mutual

/-- Read a statement. Its kind shows in the keys, in a fixed order. -/
def stmt (c : Names) (n : Node) : Except DecodeError Stmt :=
  match n with
  | .mapping pos es =>
    let get := fun key => (lastUnder? key es).map (·.1)
    match lastUnder? "assign" es with
    | some ⟨dst, _⟩ => do
      let dst ← c.target dst
      let src ← inPart (bytes "value") (c.valueOf false (get "value"))
      return .assign pos dst src
    | none =>
    match lastUnder? "if" es with
    | some ⟨cond, _⟩ => do
      let cond ← inPart (bytes "condition") (c.value true cond)
      let yes ← inPart (bytes "then") (c.branch es "then")
      let no ← inPart (bytes "else") (c.branch es "else")
      return .choose pos cond yes no
    | none =>
    match lastUnder? "while" es with
    | some ⟨cond, _⟩ => do
      let cond ← inPart (bytes "condition") (c.value true cond)
      let body ← inPart (bytes "do") (c.branch es "do")
      return .loop pos cond body
    | none =>
    match lastUnder? "repeat" es with
    | some _ => do
      let body ← inPart (bytes "repeat") (c.branch es "repeat")
      let cond ← inPart (bytes "until") (c.valueOf true (get "until"))
      return .untilLoop pos body cond
    | none =>
    match lastUnder? "call" es with
    | some ⟨name, _⟩ => c.call pos name.text (get "args")
    | none =>
    match lastUnder? "read" es with
    | some ⟨dst, _⟩ => do return .read pos (← c.target dst)
    | none =>
    match lastUnder? "write" es with
    | some ⟨src, _⟩ => do return .write pos (← c.value false src)
    | none => .error (.unknownStatement pos)
  | .scalar pos _ | .sequence pos _ | .alias pos _ => .error (.mappingExpected pos)
  termination_by sizeOf n
  decreasing_by all_goals exact sizeOf_entries_lt ..

def branch (c : Names) (es : List (Node × Node)) (key : String) :
    Except DecodeError (List Stmt) :=
  match lastUnder? key es with
  | none => .ok []
  | some ⟨n, _⟩ => c.block n
  termination_by sizeOf es

def block (c : Names) (n : Node) : Except DecodeError (List Stmt) :=
  match n with
  | .sequence _ items => c.stmts items
  | .scalar pos _ | .mapping pos _ | .alias pos _ => .error (.listExpected pos)
  termination_by sizeOf n

def stmts (c : Names) (l : List Node) : Except DecodeError (List Stmt) :=
  match l with
  | [] => .ok []
  | n :: rest => do
    let s ← c.stmt n
    return s :: (← c.stmts rest)
  termination_by sizeOf l

end

end Names

def declare (scope : List (Bytes × Ref)) (name : Bytes) (ref : Ref) :
    Except DecodeError (List (Bytes × Ref)) :=
  if name.isEmpty then .error .unnamedVariable
  else if (scope.lookup name).isSome then .error (.redeclared name)
  else .ok ((name, ref) :: scope)

def RawParam.declare (pos : Position) (scope : List (Bytes × Ref)) (p : RawParam) (i : Nat) :
    Except DecodeError (List (Bytes × Ref)) :=
  if p.array && p.value then .error (.arrayByValue pos p.name)
  else Tree.declare scope p.name (.param i)

def RawLocal.declare (pos : Position) (scope : List (Bytes × Ref)) (v : RawLocal) (i : Nat) :
    Except DecodeError (List (Bytes × Ref)) :=
  if v.size < 0 then .error (.negativeSize pos v.name)
  else Tree.declare scope v.name (.localVar i)

namespace RawProc

def scope (rp : RawProc) : Except DecodeError (List (Bytes × Ref)) := do
  let scope ← rp.params.zipIdx.foldlM (fun scope (p, i) => p.declare rp.pos scope i) []
  rp.locals.zipIdx.foldlM (fun scope (v, i) => v.declare rp.pos scope i) scope

/-- Link a procedure, given those that it can call. Its declarations have its own place. -/
def link (rp : RawProc) (name : Bytes) (isMain : Bool) (procs : List Callee) :
    Except DecodeError Proc := do
  let names : Names := { procs := procs, vars := ← rp.scope }
  let body ← inPart (bytes "body") (names.stmts rp.body)
  return {
    name := name
    isMain := isMain
    pos := rp.pos
    params := rp.params.map fun p =>
      { name := p.name
        mode := if p.value then .byValue else .byRef
        array := p.array
        pos := rp.pos }
    locals := rp.locals.map fun v => { name := v.name, size := v.size, pos := rp.pos }
    body := body }

def linkProc (rp : RawProc) (procs : List Callee) : Except DecodeError Proc :=
  if rp.name.isEmpty then .error (.unnamedProc rp.pos)
  else if procs.any (·.name == rp.name) then .error (.redeclaredProc rp.pos)
  else rp.link rp.name false procs

def linkMain (rp : RawProc) (procs : List Callee) : Except DecodeError Proc :=
  if !rp.params.isEmpty then .error (.mainParams rp.pos)
  else rp.link (if rp.name.isEmpty then bytes "main" else rp.name) true procs

end RawProc

def callees (decls : List Proc) : List Callee :=
  decls.zipIdx.map fun (d, i) => { name := d.name, number := i, arity := d.params.length }

/-- Link procedures one after the other. An empty one is a fault. -/
def linkProcs (done : List Proc) :
    List (Option RawProc) → ExceptT DecodeError (Except Fault) (List Proc)
  | [] => return done
  | none :: _ => throwThe Fault .outOfRange
  | some rp :: rest => do
    let p ← ExceptT.mk (.ok (inPart (bytes "procedure " ++ rp.name) (rp.linkProc (callees done))))
    linkProcs (done ++ [p]) rest

def RawFile.link (raw : RawFile) : ExceptT DecodeError (Except Fault) File := do
  match raw.main with
  | none => throw .noMain
  | some main =>
    let procs ← linkProcs [] raw.procedures
    let p ← ExceptT.mk (.ok (inPart (bytes "main") (main.linkMain (callees procs))))
    return { decls := procs ++ [p] }

/-- Why a text is no program: the loader refuses it, or what is loaded cannot be linked. -/
inductive ReadError (ε : Type) where
  | document (e : ε)
  | program (e : DecodeError)
  deriving DecidableEq, Repr

/-- The program that a text describes, given what loads raw programs. -/
def decodeWith {ε : Type} (load : Bytes → Except Fault (Except ε RawFile)) (text : Bytes) :
    Except Fault (Except (ReadError ε) File) := do
  match ← load text with
  | .error e => return .error (.document e)
  | .ok raw =>
    match ← raw.link.run with
    | .error e => return .error (.program e)
    | .ok f => return .ok f

end Accumulator.Tree
