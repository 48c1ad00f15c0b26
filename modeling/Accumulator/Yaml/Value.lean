import Accumulator.Text.Bytes
import Accumulator.Yaml.Timestamp

/-!
# Values of scalars

What a plain scalar stands for, by its text and its tag: null, a boolean, an integer, a number with
a fraction, a timestamp or the text itself. An explicit tag has to agree with the text.
-/

namespace Accumulator.Yaml

open Text (bytes)

/-- A number with a fraction, as far as its whole part goes. -/
inductive Real where
  | nan
  | infinite (negative : Bool)
  /-- The double nearest to the number, cut off to an integer. -/
  | finite (whole : Int)
  deriving DecidableEq, Repr

inductive Value where
  | null
  | bool (b : Bool)
  /-- An integer between -2⁶³ and 2⁶⁴ - 1. -/
  | int (i : Int)
  | real (x : Real)
  | time
  | text (s : Bytes)
  deriving DecidableEq, Repr

namespace Value

def tag : Value → String
  | .null => "!!null"
  | .bool _ => "!!bool"
  | .int _ => "!!int"
  | .real _ => "!!float"
  | .time => "!!timestamp"
  | .text _ => "!!str"

def roundHalfEven (n d : Nat) : Nat :=
  let q := n / d
  let r := n % d
  if d < 2 * r || (2 * r = d && q % 2 = 1) then q + 1 else q

def scale (n d : Nat) (e : Int) : Nat × Nat :=
  if 0 ≤ e then (n, d <<< e.toNat) else (n <<< (-e).toNat, d)

/-- The whole part of the double nearest to a quotient, if it is in the range of doubles. -/
def wholeOfDouble (n d : Nat) : Option Nat :=
  if n = 0 then some 0
  else
    let e : Int := (Nat.log2 n : Int) - Nat.log2 d - 53
    let q := let (a, b) := scale n d e; a / b
    let e := if 1 <<< 54 ≤ q then e + 2 else if 1 <<< 53 ≤ q then e + 1 else e
    let m := let (a, b) := scale n d e; roundHalfEven a b
    let whole := if 0 ≤ e then m <<< e.toNat else m >>> (-e).toNat
    if 1 <<< 1024 ≤ whole then none else some whole

def allDigits (cs : List Char) : Bool := cs.all Char.isDigit

def natOf (cs : List Char) : Nat := cs.foldl (fun n d => n * 10 + (d.toNat - 48)) 0

def splitSign : List Char → Bool × List Char
  | '-' :: rest => (true, rest)
  | '+' :: rest => (false, rest)
  | cs => (false, cs)

def exponent? : List Char → Option Int
  | [] => some 0
  | c :: rest =>
    if c = 'e' || c = 'E' then
      let (negative, digits) := splitSign rest
      if digits.isEmpty || !allDigits digits then none
      else some (if negative then -(natOf digits : Int) else natOf digits)
    else none

/-- The double nearest to some digits with a decimal exponent. -/
def decimal (negative : Bool) (digits : List Char) (exponent : Int) : Option Real :=
  let n := natOf digits
  let magnitude := (digits.dropWhile (· = '0')).length + exponent
  if n = 0 || magnitude < -400 then some (.finite 0)
  else if 400 < magnitude then none
  else
    let (a, b) := if 0 ≤ exponent then (n * Nat.pow 10 exponent.toNat, 1)
      else (n, Nat.pow 10 (-exponent).toNat)
    (wholeOfDouble a b).map fun w => .finite (if negative then -(w : Int) else w)

/-- A decimal fraction, with digits before or behind the point. -/
def real? (cs : List Char) : Option Real := do
  let (negative, rest) := splitSign cs
  let whole := rest.takeWhile Char.isDigit
  let rest := rest.drop whole.length
  let (fraction, rest) := match rest with
    | '.' :: rest => (rest.takeWhile Char.isDigit, rest.dropWhile Char.isDigit)
    | _ => ([], rest)
  if whole.isEmpty && fraction.isEmpty then none
  else decimal negative (whole ++ fraction) ((← exponent? rest) - fraction.length)

def digitIn? (base : Nat) (c : Char) : Option Nat :=
  let d :=
    if c.isDigit then c.toNat - 48
    else if c.isLower then c.toNat - 87
    else if c.isUpper then c.toNat - 55
    else base
  if d < base then some d else none

def natIn? (base : Nat) (cs : List Char) : Option Nat :=
  cs.foldlM (fun n c => (digitIn? base c).map (n * base + ·)) 0

/-- A natural number whose base shows in front: hexadecimal, octal, binary or decimal. -/
def nat? : List Char → Option Nat
  | [] => none
  | '0' :: x :: d :: rest =>
    if x = 'b' || x = 'B' then natIn? 2 (d :: rest)
    else if x = 'o' || x = 'O' then natIn? 8 (d :: rest)
    else if x = 'x' || x = 'X' then natIn? 16 (d :: rest)
    else natIn? 8 (x :: d :: rest)
  | '0' :: rest => natIn? 8 rest
  | cs => natIn? 10 cs

def signedLimit : Nat := 0x8000000000000000

/-- An integer of 64 bits, signed or not. Without a sign it may be larger. -/
def inRange (signed negative : Bool) (n : Nat) : Option Int :=
  if negative then (if n ≤ signedLimit then some (-(n : Int)) else none)
  else if n < signedLimit || (!signed && n < 2 * signedLimit) then some n
  else none

def isSigned (cs : List Char) : Bool := cs.head? = some '-' || cs.head? = some '+'

/-- An integer whose sign stands behind its base. -/
def lateSign? (base : Nat) (cs : List Char) : Option Int := do
  let (negative, digits) := splitSign cs
  if digits.isEmpty then none
  else inRange (isSigned cs) negative (← natIn? base digits)

def int? (cs : List Char) : Option Int := do
  let (negative, digits) := splitSign cs
  inRange (isSigned cs) negative (← nat? digits)

def lateInt? : List Char → Option Int
  | '0' :: 'b' :: rest => lateSign? 2 rest
  | '0' :: 'o' :: rest => lateSign? 8 rest
  | _ => none

def number? (s : String) : Option Value :=
  let cs := s.toList.filter (· ≠ '_')
  match int? cs with
  | some i => some (.int i)
  | none =>
    match real? cs with
    | some x => some (.real x)
    | none => (lateInt? cs).map .int

/-- Whether each underscore stands between two digits. -/
def underscoresFit (afterDigit : Bool) : List Char → Bool
  | [] => true
  | '_' :: rest => afterDigit && (rest.headD '_').isDigit && underscoresFit false rest
  | c :: rest => underscoresFit c.isDigit rest

def word? (s : String) : Option Value :=
  if ["", "~", "null", "Null", "NULL"].contains s then some .null
  else if ["true", "True", "TRUE"].contains s then some (.bool true)
  else if ["false", "False", "FALSE"].contains s then some (.bool false)
  else if [".nan", ".NaN", ".NAN"].contains s then some (.real .nan)
  else if [".inf", ".Inf", ".INF", "+.inf", "+.Inf", "+.INF"].contains s then
    some (.real (.infinite false))
  else if ["-.inf", "-.Inf", "-.INF"].contains s then some (.real (.infinite true))
  else none

/-- What a text stands for. Only without a tag, or with the tag for it, it can be a timestamp. -/
def read (tag s : String) : Value :=
  match word? s with
  | some v => v
  | none =>
    let first := (s.toList.headD ' ')
    if first = '.' then
      if underscoresFit false s.toList then
        ((real? (s.toList.filter (· ≠ '_'))).map Value.real).getD (.text (bytes s))
      else .text (bytes s)
    else if first.isDigit || first = '+' || first = '-' then
      if (tag = "" || tag = "!!timestamp") && Timestamp.isTimestamp s then .time
      else (number? s).getD (.text (bytes s))
    else .text (bytes s)

def plainTag (s : String) : String := (read "" s).tag

/-- The value of a scalar, if its tag and its text agree. Tags of other schemas leave the text as
it is. -/
def resolve? (tag s : String) : Option Value :=
  if tag = "!!str" then some (.text (bytes s))
  else if ["!!bool", "!!int", "!!float", "!!null", "!!timestamp"].contains tag then
    match read tag s with
    | .int i =>
      if tag = "!!int" then some (.int i)
      else if tag = "!!float" && i < signedLimit then
        (wholeOfDouble i.natAbs 1).map fun w => .real (.finite (if i < 0 then -(w : Int) else w))
      else none
    | v => if v.tag = tag then some v else none
  else some (.text (bytes s))

def sextet? (c : Char) : Option Nat :=
  if c.isUpper then some (c.toNat - 65)
  else if c.isLower then some (c.toNat - 71)
  else if c.isDigit then some (c.toNat + 4)
  else if c = '+' then some 62
  else if c = '/' then some 63
  else none

/-- The bytes of data in base 64. The last group is padded. -/
def base64? : List Char → Option Bytes
  | [] => some []
  | [a, b, '=', '='] => do
    let a ← sextet? a
    let b ← sextet? b
    return [.ofNat (a * 4 + b / 16)]
  | [a, b, c, '='] => do
    let a ← sextet? a
    let b ← sextet? b
    let c ← sextet? c
    return [.ofNat (a * 4 + b / 16), .ofNat (b % 16 * 16 + c / 4)]
  | a :: b :: c :: d :: rest => do
    let a ← sextet? a
    let b ← sextet? b
    let c ← sextet? c
    let d ← sextet? d
    return [.ofNat (a * 4 + b / 16), .ofNat (b % 16 * 16 + c / 4), .ofNat (c % 4 * 64 + d)] ++
      (← base64? rest)
  | _ => none

def binary? (s : String) : Option Bytes :=
  base64? (s.toList.filter fun c => c ≠ '\n' && c ≠ '\r')

end Value

end Accumulator.Yaml
