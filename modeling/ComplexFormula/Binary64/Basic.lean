/-!
# Binary64 values and rounding

The non-negative binary64 values form one increasing scale: zero, the subnormals, the normals and infinity. A
`Magnitude` is a place on that scale, counted from zero. Measured in units of `2^-1074` every finite place is a
whole number (`unitsAt`), and infinity sits where the next finite value would be, at `2^1024`. `Magnitude.nearest`
rounds any exact quotient to the nearest place, a tie going to the even one; that one function carries all rounding.

All NaNs are one value. Zeros have a sign.
-/

namespace ComplexFormula

/-- The place of infinity on the scale. -/
def infinityIndex : Nat := 2047 <<< 52

/-- A place on the scale of non-negative values. -/
structure Magnitude where
  index : Nat
  index_le : index ≤ infinityIndex
deriving DecidableEq

inductive Binary64 where
  | nan
  | number (negative : Bool) (magnitude : Magnitude)
deriving DecidableEq

/-! ## The scale -/

/-- The value at a place, in units of `2^-1074`. -/
def unitsAt (n : Nat) : Nat := if n < 1 <<< 52 then n else (1 <<< 52 + n % (1 <<< 52)) <<< (n >>> 52 - 1)

/-- The last place whose value is at most `t` units. -/
def indexBelow (t : Nat) : Nat :=
  if t < 1 <<< 53 then t else (t.log2 - 52) <<< 52 + t >>> (t.log2 - 52)

namespace Magnitude

def zero : Magnitude := ⟨0, Nat.zero_le _⟩

def infinity : Magnitude := ⟨infinityIndex, Nat.le_refl _⟩

def isZero (m : Magnitude) : Bool := m.index == 0

def isInfinite (m : Magnitude) : Bool := m.index == infinityIndex

/-- The value of a magnitude, in units of `2^-1074`. -/
def units (m : Magnitude) : Nat := unitsAt m.index

/-- The magnitude nearest to `num / den` units. Halfway between two places the even one is taken. -/
def nearest (num den : Nat) : Magnitude :=
  let n := indexBelow (num / den)
  if h : n < infinityIndex then
    let middle := den * (unitsAt n + unitsAt (n + 1))
    if 2 * num < middle ∨ (2 * num = middle ∧ n % 2 = 0) then ⟨n, Nat.le_of_lt h⟩ else ⟨n + 1, h⟩
  else infinity

/-- The magnitude nearest to `coefficient * base ^ exponent`. -/
def ofScaled (base coefficient : Nat) (exponent : Int) : Magnitude :=
  nearest (coefficient <<< 1074 * base.pow exponent.toNat) (base.pow (-exponent).toNat)

end Magnitude

/-! ## Values -/

namespace Binary64

def zero : Binary64 := .number false .zero

/-- Both zeros are zero. -/
def isZero : Binary64 → Bool
  | .nan => false
  | .number _ m => m.isZero

/-- The value that a bit pattern stands for. -/
def ofBits (bits : UInt64) : Binary64 :=
  let rest := bits.toNat % (1 <<< 63)
  if h : rest ≤ infinityIndex then .number (1 <<< 63 ≤ bits.toNat) ⟨rest, h⟩ else .nan

end Binary64

end ComplexFormula
