/-!
# Cursors

A place in the text of a document, with its line and column. The text ends in an endless row of
NUL characters, which cannot stand in it.
-/

namespace Accumulator.Yaml

structure Mark where
  index : Nat := 0
  line : Nat := 0
  col : Nat := 0
  deriving DecidableEq, Repr, Inhabited

/-- What is left of the text. `fresh` says that only blanks came since the last line break. -/
structure Cursor where
  rest : List Char
  mark : Mark := {}
  fresh : Bool := false
  deriving Repr, Inhabited

def nul : Char := Char.ofNat 0

def isBlank (c : Char) : Bool := c = ' ' || c = '\t'

/-- Line breaks are CR, LF, NEL, LS and PS. -/
def isBreak (c : Char) : Bool :=
  c = '\r' || c = '\n' || c.toNat = 0x85 || c.toNat = 0x2028 || c.toNat = 0x2029

def isBreakOrEnd (c : Char) : Bool := isBreak c || c = nul

def isBlankOrEnd (c : Char) : Bool := isBlank c || isBreakOrEnd c

def isWordChar (c : Char) : Bool := c.isAlphanum || c = '_' || c = '-'

namespace Cursor

def peekAt (c : Cursor) (k : Nat) : Char := (c.rest[k]?).getD nul

def peek (c : Cursor) : Char := c.rest.headD nul

def atEnd (c : Cursor) : Bool := c.rest.isEmpty

def skip (c : Cursor) : Cursor :=
  match c.rest with
  | [] => c
  | x :: rest =>
    { rest := rest, fresh := c.fresh && isBlank x,
      mark := { c.mark with index := c.mark.index + 1, col := c.mark.col + 1 } }

def skipMany (c : Cursor) : Nat → Cursor
  | 0 => c
  | n + 1 => c.skip.skipMany n

def skipBreak (c : Cursor) : Cursor :=
  let behind := fun (rest : List Char) (n : Nat) =>
    { rest := rest, fresh := true,
      mark := { index := c.mark.index + n, line := c.mark.line + 1, col := 0 } : Cursor }
  match c.rest with
  | '\r' :: '\n' :: rest => behind rest 2
  | x :: rest => if isBreak x then behind rest 1 else c
  | [] => c

def breakText (c : Cursor) : List Char :=
  match c.rest with
  | x :: _ => if x.toNat = 0x2028 || x.toNat = 0x2029 then [x] else if isBreak x then ['\n'] else []
  | [] => []

/-- Go over the characters in front that meet a condition. They must not be line breaks. -/
def skipWhile (p : Char → Bool) (c : Cursor) : Cursor := c.skipMany (c.rest.takeWhile p).length

def takeWhile (p : Char → Bool) (c : Cursor) : List Char := c.rest.takeWhile p

/-- Whether three equal characters at the start of a line mark a document's start or end. -/
def atIndicator (c : Cursor) (x : Char) : Bool :=
  c.mark.col = 0 && c.peekAt 0 = x && c.peekAt 1 = x && c.peekAt 2 = x && isBlankOrEnd (c.peekAt 3)

def atDocumentMark (c : Cursor) : Bool := c.atIndicator '-' || c.atIndicator '.'

def skipComment (c : Cursor) : Cursor :=
  if c.peek = '#' then c.skipWhile (fun x => !isBreakOrEnd x) else c

end Cursor

end Accumulator.Yaml
