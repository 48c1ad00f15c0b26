import Accumulator.Position
import Accumulator.Yaml.Token
import Accumulator.Yaml.Value

/-!
# Nodes

A document is a tree of scalars, sequences and mappings. Nodes with an anchor can be referred to by
aliases; an alias holds the number of its node in the table of anchored nodes. An anchor counts
from the start of its node on, so a node may contain an alias of itself. Of a stream only the first
document is read.
-/

namespace Accumulator.Yaml

inductive Node where
  | scalar (pos : Position) (tag text : String)
  | sequence (pos : Position) (tag : String) (items : List Node)
  | mapping (pos : Position) (tag : String) (entries : List (Node × Node))
  | alias (pos : Position) (name : String) (target : Nat)
  deriving Repr, Inhabited

def Node.pos : Node → Position
  | .scalar p _ _ | .sequence p _ _ | .mapping p _ _ | .alias p _ _ => p

structure Document where
  root : Node
  anchors : Array Node
  deriving Repr, Inhabited

/-- What is left of the tokens, the anchors in force, newest first, and the anchored nodes. -/
structure Parser where
  tokens : List Token
  /-- How many tokens may still be looked at, if not all. -/
  limit : Option Nat
  handles : List (String × String) := []
  anchors : List (String × Nat) := []
  nodes : Array Node := #[]

abbrev Parse := StateT Parser Option

namespace Parser

def streamEnd : Token := { lexeme := .streamEnd, start := {}, stop := {} }

def peek : Parse Token := do
  let p ← get
  if p.limit = some 0 then failure
  return p.tokens.headD streamEnd

/-- Go over the next token. The last one stays. -/
def skip : Parse Unit := modify fun p =>
  match p.tokens with
  | _ :: t :: rest => { p with tokens := t :: rest, limit := p.limit.map (· - 1) }
  | _ => { p with limit := p.limit.map (· - 1) }

def position (m : Mark) : Position := { line := m.line + 1, col := m.col + 1 }

def emptyScalar (m : Mark) : Node := .scalar (position m) "!!null" ""

def coreUri : String := "tag:yaml.org,2002:"

def shortTag (tag : String) : String :=
  if tag.startsWith coreUri then "!!" ++ (tag.drop coreUri.length).toString else tag

/-- The tag of a node: the written one, or the given one if it says nothing. -/
def tagOf (written : Option String) (default : String) : String :=
  match written with
  | none => default
  | some t => if t = "!" then default else shortTag t

def scalarTag (written : Option String) (plain : Bool) (text : String) : String :=
  tagOf written (if !plain then "!!str" else if text = "<<" then "!!merge" else Value.plainTag text)

def declare : Option String → Parse (Option Nat)
  | none => return none
  | some name => do
    let p ← get
    let k := p.nodes.size
    set { p with anchors := (name, k) :: p.anchors, nodes := p.nodes.push default }
    return some k

def define (k : Option Nat) (n : Node) : Parse Node := do
  match k with
  | none => return n
  | some k =>
    modify fun p => { p with nodes := p.nodes.setIfInBounds k n }
    return n

def resolveTag (handle suffix : String) : Parse String := do
  if handle.isEmpty then return suffix
  match (← get).handles.lookup handle with
  | some uri => if (uri ++ suffix).isEmpty then failure else return uri ++ suffix
  | none => failure

structure Properties where
  start : Mark
  anchor : Option String := none
  tag : Option String := none

def properties : Parse Properties := do
  let t ← peek
  match t.lexeme with
  | .anchor name =>
    skip
    let u ← peek
    match u.lexeme with
    | .tag handle suffix =>
      skip
      let _ ← peek
      return { start := t.start, anchor := some name, tag := some (← resolveTag handle suffix) }
    | _ => return { start := t.start, anchor := some name }
  | .tag handle suffix =>
    skip
    let u ← peek
    match u.lexeme with
    | .anchor name =>
      skip
      let _ ← peek
      return { start := t.start, anchor := some name, tag := some (← resolveTag handle suffix) }
    | _ => return { start := t.start, tag := some (← resolveTag handle suffix) }
  | _ => return { start := t.start }

mutual

/-- Read a node. Blocks can only stand in blocks, and a sequence without indentation of its own
only as a part of a mapping. -/
def node (inBlock bare : Bool) : Nat → Parse Node
  | 0 => failure
  | fuel + 1 => do
    let t ← peek
    match t.lexeme with
    | .alias name =>
      skip
      match (← get).anchors.lookup name with
      | some k => return .alias (position t.start) name k
      | none => failure
    | _ =>
      let props ← properties
      let t ← peek
      let pos := position props.start
      match t.lexeme with
      | .blockEntry =>
        if bare then
          let k ← declare props.anchor
          let items ← bareItems fuel
          define k (.sequence pos (tagOf props.tag "!!seq") items)
        else emptyNode props
      | .scalar text plain =>
        skip
        let k ← declare props.anchor
        define k (.scalar pos (scalarTag props.tag plain text) text)
      | .flowSequenceStart =>
        skip
        let k ← declare props.anchor
        let items ← flowItems true fuel
        define k (.sequence pos (tagOf props.tag "!!seq") items)
      | .flowMappingStart =>
        skip
        let k ← declare props.anchor
        let entries ← flowEntries true fuel
        define k (.mapping pos (tagOf props.tag "!!map") entries)
      | .blockSequenceStart =>
        if inBlock then
          skip
          let k ← declare props.anchor
          let items ← blockItems fuel
          define k (.sequence pos (tagOf props.tag "!!seq") items)
        else emptyNode props
      | .blockMappingStart =>
        if inBlock then
          skip
          let k ← declare props.anchor
          let entries ← blockEntries fuel
          define k (.mapping pos (tagOf props.tag "!!map") entries)
        else emptyNode props
      | _ => emptyNode props

def emptyNode (props : Properties) : Parse Node := do
  if props.anchor.isNone && props.tag.isNone then failure
  let k ← declare props.anchor
  define k (.scalar (position props.start) (scalarTag props.tag true "") "")

def blockItems : Nat → Parse (List Node)
  | 0 => failure
  | fuel + 1 => do
    let t ← peek
    match t.lexeme with
    | .blockEntry =>
      skip
      let item ←
        match (← peek).lexeme with
        | .blockEntry | .blockEnd => pure (emptyScalar t.stop)
        | _ => node true false fuel
      return item :: (← blockItems fuel)
    | .blockEnd =>
      skip
      return []
    | _ => failure

/-- The items of a sequence without indentation of its own. -/
def bareItems : Nat → Parse (List Node)
  | 0 => failure
  | fuel + 1 => do
    let t ← peek
    match t.lexeme with
    | .blockEntry =>
      skip
      let item ←
        match (← peek).lexeme with
        | .blockEntry | .key | .value | .blockEnd => pure (emptyScalar t.stop)
        | _ => node true false fuel
      return item :: (← bareItems fuel)
    | _ => return []

def blockPart (stop : Mark) : Nat → Parse Node
  | 0 => failure
  | fuel + 1 => do
    match (← peek).lexeme with
    | .key | .value | .blockEnd => return emptyScalar stop
    | _ => node true true fuel

def blockEntries : Nat → Parse (List (Node × Node))
  | 0 => failure
  | fuel + 1 => do
    let t ← peek
    match t.lexeme with
    | .key =>
      skip
      let k ← blockPart t.stop fuel
      let u ← peek
      let v ←
        match u.lexeme with
        | .value =>
          skip
          blockPart u.stop fuel
        | _ => pure (emptyScalar u.start)
      return (k, v) :: (← blockEntries fuel)
    | .blockEnd =>
      skip
      return []
    | _ => failure

/-- The items of a flow sequence. An item with a colon is a mapping of one entry. -/
def flowItems (first : Bool) : Nat → Parse (List Node)
  | 0 => failure
  | fuel + 1 => do
    match (← peek).lexeme with
    | .flowSequenceEnd =>
      skip
      return []
    | .flowEntry => if first then failure else skip
    | _ => if !first then failure
    let t ← peek
    match t.lexeme with
    | .flowSequenceEnd =>
      skip
      return []
    | .key =>
      skip
      let entry ← flowPair fuel
      return .mapping (position t.start) "!!map" [entry] :: (← flowItems false fuel)
    | _ =>
      let item ← node false false fuel
      return item :: (← flowItems false fuel)

/-- The entry of a mapping that stands in a sequence. In place of a missing key one token is
dropped. -/
def flowPair : Nat → Parse (Node × Node)
  | 0 => failure
  | fuel + 1 => do
    let t ← peek
    let k ←
      match t.lexeme with
      | .value | .flowEntry | .flowSequenceEnd => do
        skip
        pure (emptyScalar t.stop)
      | _ => node false false fuel
    let u ← peek
    match u.lexeme with
    | .value =>
      skip
      match (← peek).lexeme with
      | .flowEntry | .flowSequenceEnd => return (k, emptyScalar u.start)
      | _ => return (k, ← node false false fuel)
    | _ => return (k, emptyScalar u.start)

def flowEntries (first : Bool) : Nat → Parse (List (Node × Node))
  | 0 => failure
  | fuel + 1 => do
    match (← peek).lexeme with
    | .flowMappingEnd =>
      skip
      return []
    | .flowEntry => if first then failure else skip
    | _ => if !first then failure
    let t ← peek
    match t.lexeme with
    | .flowMappingEnd =>
      skip
      return []
    | .key =>
      skip
      let u ← peek
      let k ←
        match u.lexeme with
        | .value | .flowEntry | .flowMappingEnd => pure (emptyScalar u.start)
        | _ => node false false fuel
      let v ← flowValue fuel
      return (k, v) :: (← flowEntries false fuel)
    | _ =>
      let k ← node false false fuel
      let v := emptyScalar (← peek).start
      return (k, v) :: (← flowEntries false fuel)

def flowValue : Nat → Parse Node
  | 0 => failure
  | fuel + 1 => do
    let t ← peek
    match t.lexeme with
    | .value =>
      skip
      let u ← peek
      match u.lexeme with
      | .flowEntry | .flowMappingEnd => return emptyScalar u.start
      | _ => node false false fuel
    | _ => return emptyScalar t.start

end

def directives : Nat → Bool → List (String × String) → Parse (List (String × String))
  | 0, _, _ => failure
  | fuel + 1, versioned, handles => do
    match (← peek).lexeme with
    | .version major minor =>
      if versioned || major ≠ 1 || minor ≠ 1 then failure
      skip
      directives fuel true handles
    | .tagHandle handle uri =>
      if (handles.lookup handle).isSome then failure
      skip
      directives fuel versioned ((handle, uri) :: handles)
    | _ => return handles

def defaultHandles : List (String × String) := [("!", "!"), ("!!", coreUri)]

def content (fuel : Nat) : Parse Node := do
  let t ← peek
  match t.lexeme with
  | .version _ _ | .tagHandle _ _ | .documentStart | .documentEnd | .streamEnd =>
    return emptyScalar t.start
  | _ => node true false fuel

/-- The root of the first document of a stream, if there is one. What follows it must be certain. -/
def document (fuel : Nat) : Parse (Option Node) := do
  let _ ← peek
  skip
  let root ←
    match (← peek).lexeme with
    | .streamEnd => return none
    | .version _ _ | .tagHandle _ _ | .documentStart => do
      let handles ← directives fuel false []
      match (← peek).lexeme with
      | .documentStart =>
        skip
        modify fun p => { p with handles := handles ++ defaultHandles }
        content fuel
      | _ => failure
    | _ => do
      modify fun p => { p with handles := defaultHandles }
      node true false fuel
  let _ ← peek
  return some root

end Parser

/-- The first document of a text. An empty stream has none; a malformed one is none at all. -/
def parse? (bytes : Bytes) : Option (Option Document) := do
  let tokens := Scanner.scan (sourceOf (if bytes.isEmpty then [10] else bytes))
  let p : Parser := { tokens := tokens.list.toList, limit := tokens.limit }
  let (root, p) ← (Parser.document (3 * tokens.list.size + 10)).run p
  return root.map fun n => { root := n, anchors := p.nodes }

end Accumulator.Yaml
