import Accumulator.BitSet
import Accumulator.Position

/-!
# Binary wire form

The concise binary object representation of the few values that are logged: texts, naturals and
lists of open length.
-/

namespace Accumulator.Wire

def bigEndian (width n : Nat) : List UInt8 :=
  (List.range width).reverse.map fun i => UInt8.ofNat (n >>> (8 * i))

/-- A head of the given major type: small arguments share its byte, larger ones follow it. -/
def head (major n : Nat) : List UInt8 :=
  let top := major * 32
  if n < 24 then [UInt8.ofNat (top + n)]
  else if n < 0x100 then UInt8.ofNat (top + 24) :: bigEndian 1 n
  else if n < 0x10000 then UInt8.ofNat (top + 25) :: bigEndian 2 n
  else if n < 0x100000000 then UInt8.ofNat (top + 26) :: bigEndian 4 n
  else UInt8.ofNat (top + 27) :: bigEndian 8 n

def natural (n : Nat) : List UInt8 := head 0 n

def text (s : String) : List UInt8 := head 3 s.utf8ByteSize ++ s.toUTF8.toList

def null : List UInt8 := [0xf6]

/-- A list of open length: an opening byte, the items, a closing byte. -/
def openList (items : List (List UInt8)) : List UInt8 := 0x9f :: items.flatten ++ [0xff]

/-- A set is absent until it is first written to, and a list of its members afterwards. -/
def bitSet (s : BitSet) : List UInt8 :=
  if s.stored then openList (s.toList.map natural) else null

end Accumulator.Wire
