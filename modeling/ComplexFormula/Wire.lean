import ComplexFormula.BitSet
import ComplexFormula.ValueTable.Basic

/-!
# Binary records

Values and sets can be written as self-describing bytes: a head holds a major type in its upper three bits and a
number in the lower five, or in the 1, 2, 4 or 8 bytes that follow. Majors are 0 for integers, 3 for texts, 4 for
arrays and 5 for maps.
-/

namespace ComplexFormula.Wire

/-- The last `width` bytes of a number, most significant first. -/
def bigEndian : (width : Nat) → Nat → Bytes
  | 0, _ => []
  | width + 1, n => bigEndian width (n / 256) ++ [UInt8.ofNat n]

def head (major n : Nat) : Bytes :=
  let lead (low : Nat) : UInt8 := UInt8.ofNat (major * 32 + low)
  if n < 24 then [lead n]
  else if n < 1 <<< 8 then lead 24 :: bigEndian 1 n
  else if n < 1 <<< 16 then lead 25 :: bigEndian 2 n
  else if n < 1 <<< 32 then lead 26 :: bigEndian 4 n
  else lead 27 :: bigEndian 8 n

/-- Negative integers have a major type of their own and count down from -1. -/
def int (i : Int) : Bytes := if i < 0 then head 1 (-1 - i).toNat else head 0 i.toNat

def text (t : Bytes) : Bytes := head 3 t.length ++ t

/-- An operation with its operands, or a kind with its text. -/
def value (v : Value) : Bytes :=
  match v.kind with
  | .binary =>
    head 5 4 ++ text (bytes "kind") ++ text v.kind.label ++ text (bytes "op") ++ text (Byte.asChar v.symbol)
      ++ text [108] ++ int v.left ++ text [114] ++ int v.right
  | _ => head 5 2 ++ text (bytes "kind") ++ text v.kind.label ++ text (bytes "text") ++ text v.text

/-- An array of open length; a set without words is nothing. -/
def bitSet (s : BitSet) : Bytes :=
  if s.words.size = 0 then [0xf6] else [0x9f] ++ s.elements.flatMap (fun i => head 0 i) ++ [0xff]

end ComplexFormula.Wire
