import ComplexFormula.Text.Bytes

/-!
# The four operators

Formulas, table entries and programs carry operators as bytes. Only four bytes stand for an operation.
-/

namespace ComplexFormula

inductive Operator where
  | add
  | sub
  | mul
  | div
deriving DecidableEq

namespace Operator

def symbol : Operator → UInt8
  | .add => Byte.plus
  | .sub => Byte.minus
  | .mul => Byte.star
  | .div => Byte.slash

/-- The operation that a byte stands for. -/
def ofSymbol? (b : UInt8) : Option Operator :=
  if b = Byte.plus then some .add
  else if b = Byte.minus then some .sub
  else if b = Byte.star then some .mul
  else if b = Byte.slash then some .div
  else none

@[simp] theorem ofSymbol?_symbol (op : Operator) : ofSymbol? op.symbol = some op := by cases op <;> rfl

theorem symbol_of_ofSymbol? {b : UInt8} {op : Operator} (h : ofSymbol? b = some op) : op.symbol = b := by
  unfold ofSymbol? at h
  repeat' split at h
  all_goals cases h
  all_goals simp [symbol, *]

end Operator

end ComplexFormula
