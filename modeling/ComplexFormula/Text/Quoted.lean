import ComplexFormula.Text.Printable
import ComplexFormula.Text.Utf8

/-!
# Quoted texts

Messages show texts between double quotes and single characters between single quotes. Printable characters stand
for themselves; the quote and the backslash get a backslash; everything else is written as an escape.
-/

namespace ComplexFormula.Quoted

def hexDigit (n : Nat) : UInt8 := UInt8.ofNat (if n < 10 then 48 + n else 87 + n)

/-- The last `width` hexadecimal digits of a number. -/
def hex : (width : Nat) → Nat → Bytes
  | 0, _ => []
  | width + 1, n => hex width (n / 16) ++ [hexDigit (n % 16)]

/-- A character inside quotes of the given kind. -/
def escape (quote : UInt8) (c : Char) : Bytes :=
  if c.toNat = quote.toNat ∨ c.toNat = Byte.backslash.toNat then Byte.backslash :: String.utf8EncodeChar c
  else if isPrintable c then String.utf8EncodeChar c
  else match c.toNat with
    | 7 => bytes "\\a"
    | 8 => bytes "\\b"
    | 12 => bytes "\\f"
    | 10 => bytes "\\n"
    | 13 => bytes "\\r"
    | 9 => bytes "\\t"
    | 11 => bytes "\\v"
    | n =>
      if n < 32 ∨ n = 127 then bytes "\\x" ++ hex 2 n
      else if n < 0x10000 then bytes "\\u" ++ hex 4 n
      else bytes "\\U" ++ hex 8 n

def piece : Utf8.Piece → Bytes
  | .char c => escape Byte.doubleQuote c
  | .stray b => bytes "\\x" ++ hex 2 b.toNat

/-- A text between double quotes. -/
def double (text : Bytes) : Bytes := [Byte.doubleQuote] ++ (Utf8.pieces text).flatMap piece ++ [Byte.doubleQuote]

/-- The character whose code is the byte, between single quotes. -/
def single (b : UInt8) : Bytes :=
  [Byte.singleQuote] ++ escape Byte.singleQuote (Char.ofNat b.toNat) ++ [Byte.singleQuote]

end ComplexFormula.Quoted
