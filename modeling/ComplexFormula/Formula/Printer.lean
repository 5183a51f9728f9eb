import ComplexFormula.Formula.Basic

/-!
# Printing formulas

Every operation inside another one gets parentheses, so that no reader has to know which operator binds tighter. A
missing subtree has no text.
-/

namespace ComplexFormula.Formula

/-- A missing subtree, found below the given sides, outermost first. -/
inductive PrintError where
  | missing
  | left (error : PrintError)
  | right (error : PrintError)
deriving DecidableEq

def PrintError.message : PrintError → Bytes
  | .missing => bytes "unsupported node: <nil>"
  | .left e => bytes "left: " ++ e.message
  | .right e => bytes "right: " ++ e.message

/-- The text of a formula, in parentheses if it is an operation inside another one. -/
def render (inside : Bool) : Formula → Except PrintError Bytes
  | .hole => .error .missing
  | .number text => .ok text
  | .name id => .ok id
  | .binary b l r => do
    let left ← (render true l).mapError .left
    let right ← (render true r).mapError .right
    let body := left ++ [Byte.space] ++ Byte.asChar b ++ [Byte.space] ++ right
    return if inside then [Byte.openParen] ++ body ++ [Byte.closeParen] else body

/-- The formula's text after `onto`. -/
def append (onto : Bytes) (x : Formula) : Except PrintError Bytes := (x.render false).map (onto ++ ·)

end ComplexFormula.Formula
