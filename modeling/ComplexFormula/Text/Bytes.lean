/-!
# Byte texts

Formulas, constants and everything that is printed are sequences of bytes. A text need not be well-formed UTF-8:
positions count bytes, and an identifier is kept exactly as it was written.
-/

namespace ComplexFormula

abbrev Bytes := List UInt8

/-- The UTF-8 bytes of a string. -/
def bytes (s : String) : Bytes := s.toList.flatMap String.utf8EncodeChar

/-! ## Bytes by name -/

namespace Byte

@[match_pattern] abbrev tab : UInt8 := 9

@[match_pattern] abbrev lineFeed : UInt8 := 10

@[match_pattern] abbrev carriageReturn : UInt8 := 13

@[match_pattern] abbrev space : UInt8 := 32

@[match_pattern] abbrev doubleQuote : UInt8 := 34

@[match_pattern] abbrev percent : UInt8 := 37

@[match_pattern] abbrev singleQuote : UInt8 := 39

@[match_pattern] abbrev openParen : UInt8 := 40

@[match_pattern] abbrev closeParen : UInt8 := 41

@[match_pattern] abbrev star : UInt8 := 42

@[match_pattern] abbrev plus : UInt8 := 43

@[match_pattern] abbrev comma : UInt8 := 44

@[match_pattern] abbrev minus : UInt8 := 45

@[match_pattern] abbrev point : UInt8 := 46

@[match_pattern] abbrev slash : UInt8 := 47

@[match_pattern] abbrev zero : UInt8 := 48

@[match_pattern] abbrev one : UInt8 := 49

@[match_pattern] abbrev equals : UInt8 := 61

@[match_pattern] abbrev backslash : UInt8 := 92

@[match_pattern] abbrev underscore : UInt8 := 95

@[match_pattern] abbrev letterB : UInt8 := 98

@[match_pattern] abbrev letterE : UInt8 := 101

@[match_pattern] abbrev letterI : UInt8 := 105

@[match_pattern] abbrev letterO : UInt8 := 111

@[match_pattern] abbrev letterP : UInt8 := 112

@[match_pattern] abbrev letterT : UInt8 := 116

@[match_pattern] abbrev letterX : UInt8 := 120

@[match_pattern] abbrev letterZ : UInt8 := 122

end Byte

/-! ## Classes of bytes -/

namespace Byte

def isDigit (b : UInt8) : Bool := 48 ≤ b && b ≤ 57

/-- An ASCII letter or an underscore. -/
def isLetter (b : UInt8) : Bool := (97 ≤ b && b ≤ 122) || (65 ≤ b && b ≤ 90) || b == underscore

/-- ASCII capitals become small letters; every other byte stays. -/
def toLower (b : UInt8) : UInt8 := if 65 ≤ b && b ≤ 90 then b + 32 else b

/-- The character whose code is the byte, as UTF-8. -/
def asChar (b : UInt8) : Bytes := String.utf8EncodeChar (Char.ofNat b.toNat)

end Byte

/-! ## Numbers in decimal -/

/-- The decimal digits of a number, most significant first. -/
def decimal (n : Nat) : Bytes :=
  if n < 10 then [UInt8.ofNat (48 + n)] else decimal (n / 10) ++ [UInt8.ofNat (48 + n % 10)]

/-- How many decimal digits a number has. -/
def decimalLength (n : Nat) : Nat := if n < 10 then 1 else decimalLength (n / 10) + 1

def decimalInt (i : Int) : Bytes := if i < 0 then Byte.minus :: decimal i.natAbs else decimal i.natAbs

/-! ## Putting texts together -/

/-- The texts in order, with `sep` between neighbours. -/
def joinWith (sep : Bytes) (texts : List Bytes) : Bytes := (texts.intersperse sep).flatten

end ComplexFormula
