import ComplexFormula.Binary64.Basic

/-!
# Binary64 arithmetic

Each operation computes the exact result of its operands in units of `2^-1074` and rounds it once. Operations on
infinities and zeros follow IEEE 754: opposite infinities have no sum, zero times infinity and zero or infinity
divided by itself have no value, and a difference of equal numbers is the positive zero.
-/

namespace ComplexFormula.Binary64

def neg : Binary64 → Binary64
  | .nan => .nan
  | .number s m => .number (!s) m

/-- A finite value as a signed number of units. -/
def signedUnits (negative : Bool) (m : Magnitude) : Int := if negative then -(m.units : Int) else m.units

def add : Binary64 → Binary64 → Binary64
  | .number s a, .number r b =>
    if a.isInfinite then (if b.isInfinite && s != r then .nan else .number s a)
    else if b.isInfinite then .number r b
    else
      let sum := signedUnits s a + signedUnits r b
      -- The sum of two negative zeros is the only exact zero that is negative.
      if sum = 0 then .number (s && r) .zero else .number (sum < 0) (.nearest sum.natAbs 1)
  | _, _ => .nan

def sub (x y : Binary64) : Binary64 := add x (neg y)

def mul : Binary64 → Binary64 → Binary64
  | .number s a, .number r b =>
    if a.isInfinite || b.isInfinite then
      if a.isZero || b.isZero then .nan else .number (s != r) .infinity
    else .number (s != r) (.nearest (a.units * b.units) (1 <<< 1074))
  | _, _ => .nan

def div : Binary64 → Binary64 → Binary64
  | .number s a, .number r b =>
    if a.isInfinite then (if b.isInfinite then .nan else .number (s != r) .infinity)
    else if b.isInfinite then .number (s != r) .zero
    else if b.isZero then (if a.isZero then .nan else .number (s != r) .infinity)
    else .number (s != r) (.nearest (a.units <<< 1074) b.units)
  | _, _ => .nan

end ComplexFormula.Binary64
