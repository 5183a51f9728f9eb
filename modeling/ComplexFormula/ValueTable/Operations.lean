import ComplexFormula.Binary64.Arithmetic
import ComplexFormula.Numeral.Reader
import ComplexFormula.Numeral.Writer
import ComplexFormula.ValueTable.Basic

/-!
# Simplified operations

An operation on two places is looked at before it is added. Zeros and ones are recognised by their text and cancel;
operations on two constants are computed at once; everything else becomes an entry. A quotient by a constant that
reads as zero is never computed, so that dividing by zero is left to whoever runs the program.

A rule looks at an operand only when it needs to, so that a place outside the table is noticed only then.
-/

namespace ComplexFormula

namespace Operator

/-- The operation in binary64. -/
def compute : Operator → Binary64 → Binary64 → Binary64
  | .add => Binary64.add
  | .sub => Binary64.sub
  | .mul => Binary64.mul
  | .div => Binary64.div

end Operator

/-- What an operation comes to: a place that is there already, or a value that has to be in the table. -/
inductive Reduced where
  | place (r : Ref)
  | value (v : Value)
deriving DecidableEq

namespace ValueTable

/-- The constant that an operation on two constants comes to. -/
def folded (op : Operator) (x y : Value) : Value :=
  .constant (Numeral.write (op.compute (Numeral.read x.text) (Numeral.read y.text)))

/-- An operation none of whose operands cancels. -/
def combined (op : Operator) (a b : Ref) (x y : Value) : Reduced :=
  .value (if x.isConstant && y.isConstant then folded op x y else .binary op a b)

def reduce (t : ValueTable) : Operator → Ref → Ref → Except TableFault Reduced
  | .add, a, b => do
    let x ← t.get a
    if x.isZero then return .place b
    let y ← t.get b
    if y.isZero then return .place a
    return combined .add a b x y
  | .sub, a, b => do
    let y ← t.get b
    if y.isZero then return .place a
    let x ← t.get a
    return combined .sub a b x y
  | .mul, a, b => do
    let x ← t.get a
    if x.isZero then return .place a
    let y ← t.get b
    if y.isZero then return .place b
    if x.isOne then return .place b
    if y.isOne then return .place a
    return combined .mul a b x y
  | .div, a, b => do
    let y ← t.get b
    if y.isOne then return .place a
    let x ← t.get a
    if (Numeral.read y.text).isZero then return .value (.binary .div a b)
    return combined .div a b x y

/-- The place of the result of an operation on two places. -/
def operate (op : Operator) (a b : Ref) : Build ValueTable TableFault Ref := fun t =>
  match t.reduce op a b with
  | .ok (.place r) => (.ok r, t)
  | .ok (.value v) => intern v t
  | .error e => (.error e, t)

end ValueTable

end ComplexFormula
