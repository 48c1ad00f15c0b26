import Accumulator.Yaml.Cursor

/-!
# Scalars

Reading the text of plain, quoted and block scalars. Line breaks inside plain and quoted scalars
are folded: a single one becomes a space, and of several the first is dropped. A scanner gives
nothing if the text is malformed.
-/

namespace Accumulator.Yaml

/-- A scalar that was read: its text, where it ends, and where reading goes on. -/
structure ScalarText where
  text : String
  stop : Mark
  cursor : Cursor
  /-- Whether a line break was read behind the scalar. -/
  broke : Bool := false

structure Fold where
  cursor : Cursor
  blanks : List Char := []
  broke : Bool := false
  /-- The first line break. -/
  first : List Char := []
  /-- The line breaks after it. -/
  more : List Char := []

namespace Fold

/-- Read the gap on. Behind a line break, no tab may stand left of column `tabFrom`. -/
def scan (tabFrom : Nat) : Nat → Fold → Option Fold
  | 0, g => some g
  | fuel + 1, g =>
    let c := g.cursor
    if isBlank c.peek then
      if g.broke then
        if c.mark.col < tabFrom ∧ c.peek = '\t' then none
        else scan tabFrom fuel { g with cursor := c.skip }
      else scan tabFrom fuel { g with cursor := c.skip, blanks := g.blanks ++ [c.peek] }
    else if isBreak c.peek then
      let next := { g with cursor := c.skipBreak, blanks := [], broke := true }
      if g.broke then scan tabFrom fuel { next with more := g.more ++ c.breakText }
      else scan tabFrom fuel { next with first := c.breakText }
    else some g

def text (g : Fold) : List Char :=
  if g.broke then
    if g.first = ['\n'] then (if g.more.isEmpty then [' '] else g.more) else g.first ++ g.more
  else g.blanks

end Fold

def plainRun (flow : Bool) : List Char → List Char
  | [] => []
  | x :: rest =>
    if isBlankOrEnd x || (x = ':' && isBlankOrEnd (rest.headD nul)) ||
        (flow && [',', '?', '[', ']', '\x7b', '\x7d'].contains x) then []
    else x :: plainRun flow rest

def plainFrom (flow : Bool) (indent : Nat) : Nat → Array Char → Mark → Fold → Option ScalarText
  | 0, _, _, _ => none
  | fuel + 1, text, stop, g =>
    let c := g.cursor
    let run := plainRun flow c.rest
    if c.atDocumentMark || c.peek = '#' || run.isEmpty then
      some { text := String.ofList text.toList, stop := stop, cursor := c, broke := g.broke }
    else
      let text := text ++ g.text ++ run
      let c := c.skipMany run.length
      let stop := c.mark
      match Fold.scan indent (c.rest.length + 1) { cursor := c } with
      | none => none
      | some g =>
        if !flow && g.cursor.mark.col < indent then
          some { text := String.ofList text.toList, stop := stop, cursor := g.cursor,
                 broke := g.broke }
        else plainFrom flow indent fuel text stop g

def plain (flow : Bool) (indent : Nat) (c : Cursor) : Option ScalarText :=
  plainFrom flow indent (c.rest.length + 1) #[] c.mark { cursor := c }

def hexDigit? (c : Char) : Option Nat :=
  if c.isDigit then some (c.toNat - 48)
  else if 'a' ≤ c ∧ c ≤ 'f' then some (c.toNat - 87)
  else if 'A' ≤ c ∧ c ≤ 'F' then some (c.toNat - 55)
  else none

def hexValue? (value : Nat) : Nat → List Char → Option Nat
  | 0, _ => some value
  | _ + 1, [] => none
  | n + 1, c :: rest => (hexDigit? c).bind fun d => hexValue? (value * 16 + d) n rest

def codeEscape (n : Nat) (rest : List Char) : Option (Char × Nat) :=
  match hexValue? 0 n rest with
  | none => none
  | some v =>
    if (0xD800 ≤ v ∧ v ≤ 0xDFFF) ∨ 0x10FFFF < v then none else some (Char.ofNat v, n + 2)

def escape? : List Char → Option (Char × Nat)
  | '\\' :: x :: rest =>
    match x with
    | '0' => some (nul, 2)
    | 'a' => some (Char.ofNat 7, 2)
    | 'b' => some (Char.ofNat 8, 2)
    | 't' | '\t' => some ('\t', 2)
    | 'n' => some ('\n', 2)
    | 'v' => some (Char.ofNat 11, 2)
    | 'f' => some (Char.ofNat 12, 2)
    | 'r' => some ('\r', 2)
    | 'e' => some (Char.ofNat 27, 2)
    | ' ' => some (' ', 2)
    | '"' => some ('"', 2)
    | '\'' => some ('\'', 2)
    | '\\' => some ('\\', 2)
    | 'N' => some (Char.ofNat 0x85, 2)
    | '_' => some (Char.ofNat 0xA0, 2)
    | 'L' => some (Char.ofNat 0x2028, 2)
    | 'P' => some (Char.ofNat 0x2029, 2)
    | 'x' => codeEscape 2 rest
    | 'u' => codeEscape 4 rest
    | 'U' => codeEscape 8 rest
    | _ => none
  | _ => none

/-- Read the characters up to a blank or the closing quote. An escaped line break also ends them,
which is the last part of the answer. -/
def quotedRun (quote : Char) : Nat → Array Char → Cursor → Option (Array Char × Cursor × Bool)
  | 0, _, _ => none
  | fuel + 1, text, c =>
    let x := c.peek
    if isBlankOrEnd x then some (text, c, false)
    else if x = quote then
      if quote = '\'' ∧ c.peekAt 1 = '\'' then quotedRun quote fuel (text.push '\'') c.skip.skip
      else some (text, c, false)
    else if quote = '"' ∧ x = '\\' then
      if isBreak (c.peekAt 1) then some (text, c.skip.skipBreak, true)
      else
        match escape? c.rest with
        | some (y, n) => quotedRun quote fuel (text.push y) (c.skipMany n)
        | none => none
    else quotedRun quote fuel (text.push x) c.skip

def quotedFrom (quote : Char) : Nat → Array Char → Cursor → Option ScalarText
  | 0, _, _ => none
  | fuel + 1, text, c =>
    if c.atDocumentMark || c.atEnd then none
    else
      match quotedRun quote (c.rest.length + 1) text c with
      | none => none
      | some (text, c, escaped) =>
        if c.peek = quote then
          let c := c.skip
          some { text := String.ofList text.toList, stop := c.mark, cursor := c }
        else
          match Fold.scan 0 (c.rest.length + 1) { cursor := c, broke := escaped } with
          | none => none
          | some g => quotedFrom quote fuel (text ++ g.text) g.cursor

def quoted (c : Cursor) : Option ScalarText :=
  quotedFrom c.peek (c.rest.length + 1) #[] c.skip

inductive Chomp where
  | strip
  | clip
  | keep
  deriving DecidableEq

def chomp? (x : Char) : Option Chomp :=
  if x = '+' then some .keep else if x = '-' then some .strip else none

def increment? (c : Cursor) : Option (Option Nat) :=
  if c.peek.isDigit then
    if c.peek = '0' then none else some (some (c.peek.toNat - 48))
  else some none

def blockHeader (c : Cursor) : Option (Chomp × Option Nat × Cursor) :=
  match chomp? c.peek with
  | some chomp =>
    let c := c.skip
    (increment? c).map fun n => (chomp, n, if n.isSome then c.skip else c)
  | none =>
    match increment? c with
    | none => none
    | some none => some (.clip, none, c)
    | some (some n) =>
      let c := c.skip
      match chomp? c.peek with
      | some chomp => some (chomp, some n, c.skip)
      | none => some (.clip, some n, c)

/-- Read indentation and empty lines. With an indentation of zero every column is taken, and the
widest is found out. -/
def blockBreaks (indent : Nat) : Nat → Nat → List Char → Cursor →
    Option (Nat × List Char × Cursor)
  | 0, _, _, _ => none
  | fuel + 1, widest, breaks, c =>
    let spaces := (c.takeWhile (· = ' ')).length
    let c := c.skipMany (if indent = 0 then spaces else min spaces (indent - c.mark.col))
    let widest := max widest c.mark.col
    if (indent = 0 ∨ c.mark.col < indent) ∧ c.peek = '\t' then none
    else if isBreak c.peek then
      blockBreaks indent fuel widest (breaks ++ c.breakText) c.skipBreak
    else some (widest, breaks, c)

/-- Read the lines of a block scalar. `first` is the line break behind the last line, `breaks` are
those after it, and `wasBlank` says whether that line started with a blank. -/
def blockLines (literal : Bool) (chomp : Chomp) (indent : Nat) :
    Nat → Array Char → Bool → List Char → List Char → Cursor → Option ScalarText
  | 0, _, _, _, _, _ => none
  | fuel + 1, text, wasBlank, first, breaks, c =>
    if c.mark.col = indent ∧ !c.atEnd then
      let isBlank := isBlank c.peek
      let joint :=
        if !literal && !wasBlank && !isBlank && first = ['\n'] then
          (if breaks.isEmpty then [' '] else [])
        else first
      let line := c.takeWhile (fun x => !isBreakOrEnd x)
      let text := text ++ joint ++ breaks ++ line
      let c := c.skipMany line.length
      let first := c.breakText
      let c := c.skipBreak
      match blockBreaks indent (c.rest.length + 1) 0 [] c with
      | none => none
      | some (_, breaks, c) => blockLines literal chomp indent fuel text isBlank first breaks c
    else
      let text := if chomp = .strip then text else text ++ first
      let text := if chomp = .keep then text ++ breaks else text
      some { text := String.ofList text.toList, stop := c.mark, cursor := c }

def block (parent : Int) (c : Cursor) : Option ScalarText :=
  let literal := c.peek = '|'
  match blockHeader c.skip with
  | none => none
  | some (chomp, increment, c) =>
    let c := (c.skipWhile isBlank).skipComment
    if !isBreakOrEnd c.peek then none
    else
      let c := c.skipBreak
      let given := match increment with
        | none => 0
        | some n => (max parent 0).toNat + n
      match blockBreaks given (c.rest.length + 1) 0 [] c with
      | none => none
      | some (widest, breaks, c) =>
        let indent := if given = 0 then max (max widest (parent + 1).toNat) 1 else given
        blockLines literal chomp indent (c.rest.length + 2) #[] false [] breaks c

end Accumulator.Yaml
