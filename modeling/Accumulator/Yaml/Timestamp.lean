/-!
# Timestamps

A date, or a date with a time of day. Fields other than the year may have one or two digits.
-/

namespace Accumulator.Yaml.Timestamp

def isLeap (y : Nat) : Bool := y % 4 = 0 && (y % 100 ≠ 0 || y % 400 = 0)

def daysIn (y m : Nat) : Nat :=
  if m = 2 then (if isLeap y then 29 else 28)
  else if m = 4 || m = 6 || m = 9 || m = 11 then 30
  else 31

def value (digits : List Char) : Nat := digits.foldl (fun n d => n * 10 + (d.toNat - 48)) 0

def shortNumber (cs : List Char) : Option (Nat × List Char) :=
  let digits := (cs.take 2).takeWhile Char.isDigit
  if digits.isEmpty then none else some (value digits, cs.drop digits.length)

def expect (c : Char) : List Char → Option (List Char)
  | d :: rest => if c = d then some rest else none
  | [] => none

def date (cs : List Char) : Option (List Char) := do
  let digits := cs.takeWhile Char.isDigit
  if digits.length ≠ 4 then none
  else
    let rest ← expect '-' (cs.drop 4)
    let (month, rest) ← shortNumber rest
    let rest ← expect '-' rest
    let (day, rest) ← shortNumber rest
    if month < 1 || 12 < month || day < 1 || daysIn (value digits) month < day then none
    else some rest

def dropFraction : List Char → List Char
  | c :: d :: rest =>
    if (c = '.' || c = ',') && d.isDigit then rest.dropWhile Char.isDigit else c :: d :: rest
  | cs => cs

def clock (cs : List Char) : Option (List Char) := do
  let (hour, rest) ← shortNumber cs
  let rest ← expect ':' rest
  let (minute, rest) ← shortNumber rest
  let rest ← expect ':' rest
  let (second, rest) ← shortNumber rest
  if 24 ≤ hour || 60 ≤ minute || 60 ≤ second then none else some (dropFraction rest)

def isZone : List Char → Bool
  | ['Z'] => true
  | [sign, h, h', ':', m, m'] =>
    (sign = '+' || sign = '-') && [h, h', m, m'].all Char.isDigit && value [h, h'] ≤ 24 &&
      value [m, m'] ≤ 60
  | _ => false

def isTimestamp (s : String) : Bool :=
  match date s.toList with
  | none => false
  | some [] => true
  | some (c :: rest) =>
    if c = 'T' || c = 't' then (clock rest).any isZone
    else if c = ' ' then (clock (rest.dropWhile (· = ' '))).any List.isEmpty
    else false

end Accumulator.Yaml.Timestamp
