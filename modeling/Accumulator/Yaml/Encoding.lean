import Accumulator.Text.Bytes

/-!
# Encodings

A document is read as UTF-8, or as UTF-16 if a byte order mark says so. The mark itself is no part
of the text. Control characters other than tabs and line breaks are not allowed. The bytes are read
in pieces, and a piece with a malformed character gives no text at all.
-/

namespace Accumulator.Yaml

inductive Encoding where
  | utf8
  | utf16 (lowFirst : Bool)
  deriving DecidableEq, Repr

/-- What is in front of some bytes: a character and the number of its bytes, only a part of one, or
none that is well encoded. -/
inductive Front where
  | char (c : Char) (size : Nat)
  | incomplete
  | malformed

def utf8Front (raw : Bytes) : Front :=
  match (raw.head?).bind Text.lead? with
  | none => .malformed
  | some (width, _) =>
    if raw.length ≤ width then .incomplete
    else
      match Text.front? raw with
      | some (c, width) => .char c (width + 1)
      | none => .malformed

def unit? (lowFirst : Bool) : Bytes → Option Nat
  | a :: b :: _ =>
    some (if lowFirst then b.toNat * 256 + a.toNat else a.toNat * 256 + b.toNat)
  | _ => none

def isLowSurrogate (u : Nat) : Bool := 0xDC00 ≤ u && u < 0xE000

def utf16Front (lowFirst : Bool) (raw : Bytes) : Front :=
  match unit? lowFirst raw with
  | none => .incomplete
  | some u =>
    if isLowSurrogate u then .malformed
    else if u < 0xD800 || 0xDC00 ≤ u then .char (Char.ofNat u) 2
    else
      match unit? lowFirst (raw.drop 2) with
      | none => .incomplete
      | some v =>
        if isLowSurrogate v then
          .char (Char.ofNat (0x10000 + (u - 0xD800) * 0x400 + (v - 0xDC00))) 4
        else .malformed

def Encoding.front : Encoding → Bytes → Front
  | .utf8 => utf8Front
  | .utf16 lowFirst => utf16Front lowFirst

def isAllowed (c : Char) : Bool :=
  c = '\t' || c = '\n' || c = '\r' || (0x20 ≤ c.toNat && c.toNat ≤ 0x7E) || c.toNat = 0x85 ||
    (0xA0 ≤ c.toNat && c.toNat ≤ 0xD7FF) || (0xE000 ≤ c.toNat && c.toNat ≤ 0xFFFD) ||
    0x10000 ≤ c.toNat

/-- Add the characters of a piece to the text before it, and say which bytes are left of it. -/
def Encoding.readPiece (e : Encoding) : Nat → Array Char → Bytes → Option (Array Char × Bytes)
  | 0, text, raw => some (text, raw)
  | fuel + 1, text, raw =>
    if raw.isEmpty then some (text, [])
    else
      match e.front raw with
      | .char c size =>
        if isAllowed c then e.readPiece fuel (text.push c) (raw.drop size) else none
      | .incomplete => some (text, raw)
      | .malformed => none

/-- A text as far as it is well encoded. It is cut off if something malformed follows. -/
structure Source where
  text : Array Char
  cut : Bool

def pieceSize : Nat := 512

/-- Read on behind a text, with the bytes that are left of the piece before. -/
def Encoding.readFrom (e : Encoding) (text : Array Char) (left : Bytes) (size : Nat) :
    Nat → Bytes → Source
  | 0, _ => ⟨text, true⟩
  | fuel + 1, rest =>
    let raw := left ++ rest.take size
    let rest := rest.drop size
    match e.readPiece raw.length text raw with
    | none => ⟨text, true⟩
    | some (text, left) =>
      if rest.isEmpty then ⟨text, !left.isEmpty⟩
      else e.readFrom text left (pieceSize - left.length) fuel rest

def sourceOf : Bytes → Source
  | 0xFF :: 0xFE :: rest =>
    Encoding.readFrom (.utf16 true) #[] [] (pieceSize - 2) (rest.length + 1) rest
  | 0xFE :: 0xFF :: rest =>
    Encoding.readFrom (.utf16 false) #[] [] (pieceSize - 2) (rest.length + 1) rest
  | 0xEF :: 0xBB :: 0xBF :: rest =>
    Encoding.readFrom .utf8 #[] [] (pieceSize - 3) (rest.length + 1) rest
  | bytes => Encoding.readFrom .utf8 #[] [] pieceSize (bytes.length + 1) bytes

end Accumulator.Yaml
