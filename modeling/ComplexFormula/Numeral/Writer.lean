import ComplexFormula.Binary64.Shortest

/-!
# Writing numerals

A number is written with the fewest digits that read back. Digits are laid out positionally while the power of ten
of the leading digit is from -4 to 5, otherwise with an exponent that has a sign and at least two digits. Infinities
carry a sign, and so does the negative zero.
-/

namespace ComplexFormula.Numeral

/-- The digits without the zeros at their end. -/
def trimZeros (digits : Bytes) : Bytes := (digits.reverse.dropWhile (· == Byte.zero)).reverse

/-- One digit before the point. -/
def scientific (digits : Bytes) (exponent : Int) : Bytes :=
  let fraction := digits.drop 1
  let power := decimal exponent.natAbs
  digits.take 1 ++ (if fraction = [] then [] else Byte.point :: fraction)
    ++ [Byte.letterE, if exponent < 0 then Byte.minus else Byte.plus]
    ++ (if power.length < 2 then Byte.zero :: power else power)

/-- The point where the exponent says. -/
def positional (digits : Bytes) (exponent : Int) : Bytes :=
  if exponent < 0 then bytes "0." ++ List.replicate (exponent.natAbs - 1) Byte.zero ++ digits
  else
    let whole := exponent.toNat + 1
    let fraction := digits.drop whole
    digits.take whole ++ List.replicate (whole - digits.length) Byte.zero
      ++ (if fraction = [] then [] else Byte.point :: fraction)

/-- A finite non-zero magnitude. -/
def layout (m : Magnitude) : Bytes :=
  let d := m.shortest
  let digits := decimal d.coefficient
  let exponent := d.exponent + digits.length - 1
  if exponent < -4 ∨ 6 ≤ exponent then scientific (trimZeros digits) exponent
  else positional (trimZeros digits) exponent

/-- The text of a value. -/
def write : Binary64 → Bytes
  | .nan => bytes "NaN"
  | .number negative m =>
    if m.isInfinite then bytes (if negative then "-Inf" else "+Inf")
    else (if negative then [Byte.minus] else []) ++ (if m.isZero then [Byte.zero] else layout m)

end ComplexFormula.Numeral
