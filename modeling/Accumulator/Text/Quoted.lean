import Accumulator.Text.Bytes
import Accumulator.Text.Printable

/-!
# Quoted text

Texts inside messages stand in double quotes. Printable characters are kept, a quote and a
backslash get a backslash, the usual control characters have letters, and all others are written
by code point with two, four or eight hexadecimal digits. So is a byte that starts no character.
-/

namespace Accumulator.Text

def hexDigit (n : Nat) : Char :=
  if n < 10 then Char.ofNat (48 + n) else Char.ofNat (87 + n)

def hexDigits (width n : Nat) : List Char :=
  (List.range width).reverse.map fun i => hexDigit ((n >>> (4 * i)) % 16)

def quoteChar (c : Char) : List Char :=
  let n := c.toNat
  if c == '"' || c == '\\' then ['\\', c]
  else if isPrintable c then [c]
  else if n == 7 then ['\\', 'a']
  else if n == 8 then ['\\', 'b']
  else if n == 9 then ['\\', 't']
  else if n == 10 then ['\\', 'n']
  else if n == 11 then ['\\', 'v']
  else if n == 12 then ['\\', 'f']
  else if n == 13 then ['\\', 'r']
  else if n < 0x20 || n == 0x7f then '\\' :: 'x' :: hexDigits 2 n
  else if n < 0x10000 then '\\' :: 'u' :: hexDigits 4 n
  else '\\' :: 'U' :: hexDigits 8 n

def quoteByte (b : UInt8) : List Char := '\\' :: 'x' :: hexDigits 2 b.toNat

def quote (s : Bytes) : String :=
  String.ofList ('"' :: (runes s).flatMap (Sum.elim quoteByte quoteChar) ++ ['"'])

end Accumulator.Text
