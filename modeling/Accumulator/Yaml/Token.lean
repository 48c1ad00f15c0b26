import Accumulator.Yaml.Encoding
import Accumulator.Yaml.Scalar

/-!
# Tokens

The scanner turns the text into tokens. Block structure shows in the columns, so it keeps a stack
of indentations and writes a start and an end token for each block. A mapping key without an
indicator is recognised only at the colon behind it: the scanner remembers the token where such a
key may have begun, for each flow level, and puts the key token in front of it afterwards.
-/

namespace Accumulator.Yaml

inductive Lexeme where
  | streamStart
  | streamEnd
  | version (major minor : Nat)
  | tagHandle (handle uri : String)
  | documentStart
  | documentEnd
  | blockSequenceStart
  | blockMappingStart
  | blockEnd
  | flowSequenceStart
  | flowSequenceEnd
  | flowMappingStart
  | flowMappingEnd
  | blockEntry
  | flowEntry
  | key
  | value
  | alias (name : String)
  | anchor (name : String)
  | tag (handle suffix : String)
  | scalar (text : String) (plain : Bool)
  deriving DecidableEq, Repr, Inhabited

structure Token where
  lexeme : Lexeme
  start : Mark
  stop : Mark
  deriving Repr, Inhabited

/-- A token that may turn out to be a key. A required one stands where only a key can. -/
structure PendingKey where
  required : Bool
  token : Nat
  mark : Mark
  deriving Repr

structure Scanner where
  cursor : Cursor
  /-- Whether what follows the text cannot be read. -/
  cut : Bool := false
  tokens : Array Token := #[{ lexeme := .streamStart, start := {}, stop := {} }]
  /-- The column of the innermost block, or -1. -/
  indent : Int := -1
  indents : List Int := []
  /-- The key that may be pending at each flow level, innermost first. -/
  keys : List (Option PendingKey) := [none]
  keyAllowed : Bool := true
  finished : Bool := false

namespace Scanner

def maxDepth : Nat := 10000

def flowLevel (s : Scanner) : Nat := s.keys.length - 1

def inFlow (s : Scanner) : Bool := s.flowLevel != 0

def mark (s : Scanner) : Mark := s.cursor.mark

def push (s : Scanner) (x : Lexeme) (start stop : Mark) : Scanner :=
  { s with tokens := s.tokens.push ⟨x, start, stop⟩ }

def insert (s : Scanner) (i : Nat) (x : Lexeme) (m : Mark) : Scanner :=
  { s with tokens := s.tokens.insertIdxIfInBounds i ⟨x, m, m⟩ }

/-- A key has to be on one line, and its colon within 1024 characters. -/
def isValid (s : Scanner) (k : PendingKey) : Bool :=
  !(k.mark.line < s.mark.line || k.mark.index + 1024 < s.mark.index)

/-- Give up the pending key of this level, unless it is required. -/
def removeKey (s : Scanner) : Option Scanner :=
  match s.keys with
  | some k :: rest => if k.required then none else some { s with keys := none :: rest }
  | _ => some s

def saveKey (s : Scanner) : Option Scanner :=
  if s.keyAllowed then
    let k : PendingKey :=
      { required := !s.inFlow && s.indent = s.mark.col, token := s.tokens.size, mark := s.mark }
    s.removeKey.map fun s => { s with keys := some k :: s.keys.tail }
  else some s

/-- Start a block at a column right of the present one. The token goes to place `i`. -/
def rollIndent (s : Scanner) (col i : Nat) (x : Lexeme) (m : Mark) : Option Scanner :=
  if !s.inFlow && s.indent < col then
    if maxDepth ≤ s.indents.length then none
    else some (({ s with indents := s.indent :: s.indents, indent := col }).insert i x m)
  else some s

/-- The blocks that end at a column, and the indentation that is left. -/
def closed (col : Int) : Int → List Int → Nat × Int × List Int
  | indent, [] => (0, indent, [])
  | indent, outer :: rest =>
    if col < indent then
      let (n, indent, indents) := closed col outer rest
      (n + 1, indent, indents)
    else (0, indent, outer :: rest)

def unrollIndent (s : Scanner) (col : Int) (m : Mark) : Scanner :=
  if s.inFlow then s
  else
    let (n, indent, indents) := closed col s.indent s.indents
    { s with indent := indent, indents := indents,
             tokens := s.tokens ++ Array.replicate n (⟨.blockEnd, m, m⟩ : Token) }

def commentReach : Nat := 512

def skipComments : Nat → Cursor → Cursor
  | 0, c => c
  | fuel + 1, c =>
    let gap := c.rest.takeWhile fun x => isBlank x || x = '\r' || x = '\n'
    if gap.length < commentReach && c.peekAt gap.length = '#' then
      let lines := gap.foldl (fun c _ =>
        if isBreak c.peek then c.skipBreak else if isBlank c.peek then c.skip else c) c
      skipComments fuel lines.skipComment
    else c

/-- Skip blanks, comments and line breaks. Tabs are blanks only where no key can stand. A new line
may start with a key. -/
def skipGap : Nat → Scanner → Scanner
  | 0, s => s
  | fuel + 1, s =>
    let c := if s.mark.col = 0 && s.cursor.peek.toNat = 0xFEFF then s.cursor.skip else s.cursor
    let tabs := s.inFlow || !s.keyAllowed
    let c := c.skipWhile fun x => x = ' ' || (tabs && x = '\t')
    let c := if c.peek = '#' then skipComments (c.rest.length + 1) c.skipComment else c
    if isBreak c.peek then
      skipGap fuel { s with cursor := c.skipBreak, keyAllowed := s.keyAllowed || !s.inFlow }
    else { s with cursor := c }

def skipLineComment (s : Scanner) : Scanner :=
  let c := s.cursor
  let blanks := (c.takeWhile isBlank).length
  if !c.fresh && blanks < commentReach && c.peekAt blanks = '#' then
    { s with cursor := (c.skipMany blanks).skipComment }
  else s

def versionNumber (c : Cursor) : Option (Nat × Cursor) :=
  let digits := c.takeWhile Char.isDigit
  if digits.isEmpty || 2 < digits.length then none
  else some (digits.foldl (fun n d => n * 10 + (d.toNat - 48)) 0, c.skipMany digits.length)

def isUriChar (x : Char) : Bool :=
  isWordChar x || ";/?:@&=+$,.!~*'()[]%".toList.contains x

def utf8Width (b : Nat) : Option Nat :=
  if b < 0x80 then some 1
  else if 0xC0 ≤ b ∧ b < 0xE0 then some 2
  else if 0xE0 ≤ b ∧ b < 0xF0 then some 3
  else if 0xF0 ≤ b ∧ b < 0xF8 then some 4
  else none

def octet? : List Char → Option (Nat × List Char)
  | '%' :: rest => (hexValue? 0 2 rest).map fun v => (v, rest.drop 2)
  | _ => none

def trailingOctets : Nat → List Char → Option (List Nat × List Char)
  | 0, rest => some ([], rest)
  | n + 1, rest => do
    let (b, rest) ← octet? rest
    if b / 64 ≠ 2 then none
    else
      let (bs, rest) ← trailingOctets n rest
      return (b :: bs, rest)

def escapedOctets (rest : List Char) : Option (List Nat × List Char) := do
  let (b, rest) ← octet? rest
  let n ← utf8Width b
  let (bs, rest) ← trailingOctets (n - 1) rest
  return (b :: bs, rest)

def uriBytes : Nat → List Char → Option (List Nat × List Char)
  | 0, rest => some ([], rest)
  | fuel + 1, rest =>
    match rest with
    | [] => some ([], [])
    | x :: tail =>
      if x = '%' then do
        let (bs, rest) ← escapedOctets rest
        let (more, rest) ← uriBytes fuel rest
        return (bs ++ more, rest)
      else if isUriChar x then do
        let (more, rest) ← uriBytes fuel tail
        return (x.toNat :: more, rest)
      else some ([], rest)

def scanUri (c : Cursor) : Option (String × Cursor) := do
  let (bytes, rest) ← uriBytes c.rest.length c.rest
  let text := (String.fromUTF8? ⟨(bytes.map UInt8.ofNat).toArray⟩).getD "?"
  return (text, c.skipMany (c.rest.length - rest.length))

/-- An exclamation mark, word characters, and perhaps a second mark. -/
def scanHandle (c : Cursor) : Option (String × Cursor) :=
  if c.peek = '!' then
    let name := c.skip.takeWhile isWordChar
    let c := c.skip.skipMany name.length
    if c.peek = '!' then some (String.ofList ('!' :: name ++ ['!']), c.skip)
    else some (String.ofList ('!' :: name), c)
  else none

/-- A tag: verbatim, with a handle, or local. Returns its handle and its suffix. -/
def scanTag (c : Cursor) : Option ((String × String) × Cursor) := do
  let (r, c) ←
    if c.peekAt 1 = '<' then do
      let (uri, d) ← scanUri c.skip.skip
      if uri.isEmpty || d.peek ≠ '>' then none
      else some (("", uri), d.skip)
    else do
      let (handle, d) ← scanHandle c
      if 1 < handle.length && handle.endsWith "!" then
        let (uri, d) ← scanUri d
        if uri.isEmpty then none else some ((handle, uri), d)
      else
        let (uri, d) ← scanUri d
        let suffix := (handle.drop 1).toString ++ uri
        some (if suffix.isEmpty then ("", "!") else ("!", suffix), d)
  if isBlankOrEnd c.peek then some (r, c) else none

def scanVersion (c : Cursor) : Option (Lexeme × Cursor) := do
  let (major, c) ← versionNumber (c.skipWhile isBlank)
  if c.peek ≠ '.' then none
  else
    let (minor, c) ← versionNumber c.skip
    return (.version major minor, c)

def scanTagHandle (c : Cursor) : Option (Lexeme × Cursor) := do
  let (handle, c) ← scanHandle (c.skipWhile isBlank)
  if handle ≠ "!" ∧ !handle.endsWith "!" then none
  else if !isBlank c.peek then none
  else
    let (uri, c) ← scanUri (c.skipWhile isBlank)
    if uri.isEmpty || !isBlankOrEnd c.peek then none else some (.tagHandle handle uri, c)

def scanDirective (c : Cursor) : Option (Lexeme × Mark × Cursor) := do
  let name := c.skip.takeWhile isWordChar
  let c := c.skip.skipMany name.length
  if !isBlankOrEnd c.peek then none
  else
    let (x, c) ←
      if name = "YAML".toList then scanVersion c
      else if name = "TAG".toList then scanTagHandle c
      else none
    let stop := c.mark
    let c := (c.skipWhile isBlank).skipComment
    if isBreakOrEnd c.peek then some (x, stop, c.skipBreak) else none

def scanName (c : Cursor) : Option (String × Cursor) :=
  let name := c.skip.takeWhile isWordChar
  let c := c.skip.skipMany name.length
  if name.isEmpty then none
  else if isBlankOrEnd c.peek || "?:,]\x7d%@\x60".toList.contains c.peek then
    some (String.ofList name, c)
  else none

def take (s : Scanner) (n : Nat) (x : Lexeme) : Scanner :=
  let c := s.cursor.skipMany n
  { s.push x s.mark c.mark with cursor := c }

def fetchStreamEnd (s : Scanner) : Option Scanner :=
  let m := s.mark
  let m := if m.col = 0 then m else { m with line := m.line + 1, col := 0 }
  (s.unrollIndent (-1) m).removeKey.map fun s =>
    { s.push .streamEnd m m with keyAllowed := false, finished := true }

def leaveBlocks (s : Scanner) : Option Scanner :=
  (s.unrollIndent (-1) s.mark).removeKey.map fun s => { s with keyAllowed := false }

def fetchDirective (s : Scanner) : Option Scanner := do
  let s ← s.leaveBlocks
  let (x, stop, c) ← scanDirective s.cursor
  return { s.push x s.mark stop with cursor := c }

def fetchFlowStart (s : Scanner) (x : Lexeme) : Option Scanner := do
  let s ← s.saveKey
  if maxDepth < s.keys.length then none
  else return ({ s with keys := none :: s.keys, keyAllowed := true }).take 1 x

def fetchFlowEnd (s : Scanner) (x : Lexeme) : Option Scanner := do
  let s ← s.removeKey
  let keys := if s.inFlow then s.keys.tail else s.keys
  return ({ s with keys := keys, keyAllowed := false }).take 1 x

def fetchFlowEntry (s : Scanner) : Option Scanner :=
  s.removeKey.map fun s => ({ s with keyAllowed := true }).take 1 .flowEntry

def fetchBlockEntry (s : Scanner) : Option Scanner := do
  if !s.inFlow && !s.keyAllowed then none
  else
    let s ← s.rollIndent s.mark.col s.tokens.size .blockSequenceStart s.mark
    let s ← s.removeKey
    return ({ s with keyAllowed := true }).take 1 .blockEntry

def fetchKey (s : Scanner) : Option Scanner := do
  if !s.inFlow && !s.keyAllowed then none
  else
    let s ← s.rollIndent s.mark.col s.tokens.size .blockMappingStart s.mark
    let s ← s.removeKey
    return ({ s with keyAllowed := !s.inFlow }).take 1 .key

def fetchBareValue (s : Scanner) : Option Scanner := do
  if !s.inFlow && !s.keyAllowed then none
  else
    let s ← s.rollIndent s.mark.col s.tokens.size .blockMappingStart s.mark
    return ({ s with keyAllowed := !s.inFlow }).take 1 .value

/-- A colon. If a key is pending it is one now. -/
def fetchValue (s : Scanner) : Option Scanner := do
  match s.keys with
  | some k :: rest =>
    if s.isValid k then
      let s ← (s.insert k.token .key k.mark).rollIndent k.mark.col k.token .blockMappingStart k.mark
      return ({ s with keys := none :: rest, keyAllowed := false }).take 1 .value
    else if k.required then none
    else ({ s with keys := none :: rest }).fetchBareValue
  | _ => s.fetchBareValue

def fetchContent (s : Scanner) (read : Cursor → Option (Lexeme × Cursor)) : Option Scanner := do
  let s ← s.saveKey
  let (x, c) ← read s.cursor
  return { s.push x s.mark c.mark with cursor := c, keyAllowed := false }

def fetchBlockScalar (s : Scanner) : Option Scanner := do
  let s ← s.removeKey
  let r ← block s.indent s.cursor
  return { s.push (.scalar r.text false) s.mark r.stop with cursor := r.cursor, keyAllowed := true }

def fetchPlain (s : Scanner) : Option Scanner := do
  let s ← s.saveKey
  let r ← plain s.inFlow (s.indent + 1).toNat s.cursor
  let s := s.push (.scalar r.text true) s.mark r.stop
  return { s with cursor := r.cursor, keyAllowed := r.broke }

def startsPlain (s : Scanner) : Bool :=
  let x := s.cursor.peek
  let next := s.cursor.peekAt 1
  !(isBlankOrEnd x || "-?:,[]\x7b\x7d#&*!|>'\"%@\x60".toList.contains x) ||
    (x = '-' && !isBlank next) ||
    (!s.inFlow && (x = '?' || x = ':') && !isBlankOrEnd next)

def fetchInside (s : Scanner) : Option Scanner :=
  let x := s.cursor.peek
  let apart := isBlankOrEnd (s.cursor.peekAt 1)
  let named := fun (make : String → Lexeme) =>
    s.fetchContent fun c => (scanName c).map fun (name, c) => (make name, c)
  if x = '[' then s.fetchFlowStart .flowSequenceStart
  else if x = '\x7b' then s.fetchFlowStart .flowMappingStart
  else if x = ']' then s.fetchFlowEnd .flowSequenceEnd
  else if x = '\x7d' then s.fetchFlowEnd .flowMappingEnd
  else if x = ',' then s.fetchFlowEntry
  else if x = '-' && apart then s.fetchBlockEntry
  else if x = '?' && (s.inFlow || apart) then s.fetchKey
  else if x = ':' && (s.inFlow || apart) then s.fetchValue
  else if x = '*' then named .alias
  else if x = '&' then named .anchor
  else if x = '!' then
    s.fetchContent fun c => (scanTag c).map fun ((handle, suffix), c) => (.tag handle suffix, c)
  else if (x = '|' || x = '>') && !s.inFlow then s.fetchBlockScalar
  else if x = '\'' || x = '"' then
    s.fetchContent fun c => (quoted c).map fun r => (.scalar r.text false, r.cursor)
  else if s.startsPlain then s.fetchPlain
  else none

/-- Whether so many characters can be looked at. Behind a whole text all are NUL. -/
def shows (s : Scanner) (n : Nat) : Bool := !s.cut || (s.cursor.rest.take n).length = n

def approach (s : Scanner) : Option Scanner :=
  let t := s.skipGap (s.cursor.rest.length + 1)
  if t.shows 1 then some (t.unrollIndent t.mark.col s.mark) else none

def fetch (s : Scanner) : Option Scanner :=
  let c := s.cursor
  if c.atEnd then s.fetchStreamEnd
  else if c.mark.col = 0 && c.peek = '%' then s.fetchDirective
  else if c.atIndicator '-' then s.leaveBlocks.map (·.take 3 .documentStart)
  else if c.atIndicator '.' then s.leaveBlocks.map (·.take 3 .documentEnd)
  else
    s.fetchInside.map fun s =>
      if s.tokens.back?.any (·.lexeme = .blockEntry) then s else s.skipLineComment

/-- The tokens that were read, and how many of them can be looked at: all, with an endless row of
stream ends behind them, or those that are certain two tokens ahead of a malformed one. -/
structure Tokens where
  list : Array Token
  limit : Option Nat

/-- The tokens that can be looked at if the next one is malformed. -/
def certain (s : Scanner) : Nat :=
  s.keys.foldl (fun n k =>
    match k with
    | some k => if k.required || s.isValid k then min n k.token else n
    | none => n) (s.tokens.size - 2)

def stopped (s : Scanner) : Tokens := ⟨s.tokens, some s.certain⟩

def scanFrom : Nat → Scanner → Tokens
  | 0, s => s.stopped
  | fuel + 1, s =>
    if s.finished then ⟨s.tokens, none⟩
    else
      match s.approach with
      | none => s.stopped
      | some s =>
        match if s.shows 4 then s.fetch else none with
        | some t => if t.shows 1 then scanFrom fuel t else s.stopped
        | none => s.stopped

def scan (source : Source) : Tokens :=
  scanFrom (source.text.size + 2) { cursor := { rest := source.text.toList }, cut := source.cut }

end Scanner

end Accumulator.Yaml
