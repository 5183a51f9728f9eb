import ComplexFormula.Binary64.Basic
import ComplexFormula.Text.Bytes

/-!
# The shortest decimal that reads back

For a finite non-zero magnitude, `Magnitude.shortest` is a decimal with the fewest significant digits among those
that round to the magnitude. With `n` digits only the two neighbours of the value on the grid of `n`-digit decimals
need a test. If both read back the nearer one is taken, and of two equally near ones the one whose last digit is
even.
-/

namespace ComplexFormula

/-- The number `coefficient * 10 ^ exponent`. -/
structure Decimal where
  coefficient : Nat
  exponent : Int

namespace Magnitude

def ofDecimal (d : Decimal) : Magnitude := ofScaled 10 d.coefficient d.exponent

/-- The power of ten of the leading digit. Scaling by `10^400` makes every non-zero value at least one. -/
def leadingExponent (m : Magnitude) : Int := (decimalLength ((m.units * Nat.pow 10 400) >>> 1074) : Int) - 401

/-- The decimal with `digits` significant digits that reads back as `m`, if there is one. -/
def candidate? (m : Magnitude) (digits : Nat) : Option Decimal :=
  let exponent := m.leadingExponent + 1 - digits
  let num := m.units * Nat.pow 10 (-exponent).toNat
  let den := Nat.pow 10 exponent.toNat <<< 1074
  let lower : Decimal := ⟨num / den, exponent⟩
  let upper : Decimal := ⟨num / den + 1, exponent⟩
  let twice := 2 * (num % den)
  let lowerNearer := twice < den ∨ (twice = den ∧ lower.coefficient % 2 = 0)
  if ofDecimal lower = m then
    if ofDecimal upper = m ∧ ¬lowerNearer then some upper else some lower
  else if ofDecimal upper = m then some upper
  else none

/-- The exact value, which has a finite decimal expansion. -/
def exactDecimal (m : Magnitude) : Decimal := ⟨m.units * Nat.pow 5 1074, -1074⟩

def shortest (m : Magnitude) : Decimal :=
  ((List.range' 1 17).findSome? m.candidate?).getD m.exactDecimal

end Magnitude

end ComplexFormula
