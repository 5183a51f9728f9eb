import ComplexFormula.Formula.Basic
import ComplexFormula.ValueTable.Operations

/-!
# Real and imaginary components

A complex number is a pair of real ones. Each operation on pairs becomes real operations in the table of values,
always in the same order. A quotient multiplies by the conjugate of the divisor over the square of its modulus.

A formula can be decomposed while it is read (`Components.builder`) or from its tree (`Formula.decompose`).
-/

namespace ComplexFormula

/-- The places of the real and the imaginary part. -/
structure Components where
  re : Ref
  im : Ref
deriving DecidableEq

namespace Components

/-! ## Operations

An operation on pairs is a sequence of real ones. What carries out a real operation is left open: the table of values
does, and so may anything that watches it. -/

section Operations

variable {m : Type → Type} [Monad m] (operate : Operator → Ref → Ref → m Ref)

def add (a b : Components) : m Components := do
  let re ← operate .add a.re b.re
  let im ← operate .add a.im b.im
  return ⟨re, im⟩

def sub (a b : Components) : m Components := do
  let re ← operate .sub a.re b.re
  let im ← operate .sub a.im b.im
  return ⟨re, im⟩

def mul (a b : Components) : m Components := do
  let rr ← operate .mul a.re b.re
  let ii ← operate .mul a.im b.im
  let re ← operate .sub rr ii
  let ri ← operate .mul a.re b.im
  let ir ← operate .mul a.im b.re
  let im ← operate .add ri ir
  return ⟨re, im⟩

def div (a b : Components) : m Components := do
  let squareRe ← operate .mul b.re b.re
  let squareIm ← operate .mul b.im b.im
  let norm ← operate .add squareRe squareIm
  let rr ← operate .mul a.re b.re
  let ii ← operate .mul a.im b.im
  let sum ← operate .add rr ii
  let re ← operate .div sum norm
  let ir ← operate .mul a.im b.re
  let ri ← operate .mul a.re b.im
  let difference ← operate .sub ir ri
  let im ← operate .div difference norm
  return ⟨re, im⟩

def operation : Operator → Components → Components → m Components
  | .add => add operate
  | .sub => sub operate
  | .mul => mul operate
  | .div => div operate

end Operations

end Components

/-! ## Errors -/

inductive DecompositionError where
  | undefined (name : Bytes)
  | unsupportedOperator (b : UInt8)
  | missing
  | table (fault : TableFault)
deriving DecidableEq

def DecompositionError.message : DecompositionError → Bytes
  | .undefined name => bytes "undefined variable: " ++ name
  | .unsupportedOperator b => bytes "unsupported operator: " ++ Quoted.single b
  | .missing => bytes "unsupported node: <nil>"
  | .table fault => fault.message?.getD []

/-! ## Decomposition -/

namespace Components

/-- A number is real. -/
def number (text : Bytes) : Build ValueTable DecompositionError Components := ExceptT.adapt .table do
  let re ← ValueTable.constant text
  let im ← ValueTable.constant [Byte.zero]
  return ⟨re, im⟩

/-- The only names are the argument `z` and the imaginary unit `i`. -/
def name (id : Bytes) : Build ValueTable DecompositionError Components :=
  if id = [Byte.letterZ] then return ⟨0, 1⟩
  else if id = [Byte.letterI] then ExceptT.adapt .table do
    let re ← ValueTable.constant [Byte.zero]
    let im ← ValueTable.constant [Byte.one]
    return ⟨re, im⟩
  else throw (.undefined id)

def builder : Builder ValueTable DecompositionError Components where
  number := number
  name := name
  binary op a b := ExceptT.adapt .table (operation ValueTable.operate op a b)
  kind _ := bytes "front.Pair"

end Components

/-- Decompose a tree, operands from left to right before their operator. -/
def Formula.decompose : Formula → Build ValueTable DecompositionError Components
  | .hole => throw .missing
  | .number text => Components.number text
  | .name id => Components.name id
  | .binary b l r => do
    let x ← l.decompose
    let y ← r.decompose
    match Operator.ofSymbol? b with
    | some op => Components.builder.binary op x y
    | none => throw (.unsupportedOperator b)

end ComplexFormula
