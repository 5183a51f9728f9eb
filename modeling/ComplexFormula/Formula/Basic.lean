import ComplexFormula.Grammar.Reading

/-!
# Formulas

A formula is a tree of numbers, names and binary operations. Trees need not come from a text: an operation may carry
any byte as its operator, and a subtree may be missing (`hole`).
-/

namespace ComplexFormula

inductive Formula where
  | hole
  | number (text : Bytes)
  | name (id : Bytes)
  | binary (symbol : UInt8) (left right : Formula)
deriving DecidableEq, Inhabited

namespace Formula

/-- What messages call a tree. -/
def kind : Formula → Bytes
  | .hole => bytes "<nil>"
  | .number _ => bytes "ast.Number"
  | .name _ => bytes "ast.Name"
  | .binary .. => bytes "ast.BinOp"

/-- The builder of trees never refuses. -/
def builder : Builder Unit Empty Formula where
  number text := return .number text
  name id := return .name id
  binary op l r := return .binary op.symbol l r
  kind := kind

/-- The tree of a text. -/
def parse (text : Bytes) : Except (Rejection Empty) Formula := (builder.drive text ()).1

end Formula

end ComplexFormula
