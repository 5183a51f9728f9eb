import ComplexFormula.Program.Basic
import ComplexFormula.ValueTable.Operations

/-!
# Running programs

Programs run over any carrier with the four operations and a reading of constants; `binary64` is the one that
counts. A program is checked first: all its expressions are looked through for missing parts and for operators that
stand for no operation, whether or not it is run afterwards.
-/

namespace ComplexFormula

/-- Numbers to compute with. -/
structure Arithmetic (K : Type) where
  /-- What a temporary holds before it is assigned. -/
  zero : K
  operate : Operator → K → K → K
  constant : Bytes → K

def binary64 : Arithmetic Binary64 where
  zero := .zero
  operate := Operator.compute
  constant := Numeral.read

inductive RunFault where
  | missing
  | operator (b : UInt8)
  /-- An argument or a temporary that does not exist. -/
  | outside
deriving DecidableEq

/-- The text of a fault, if it has one. -/
def RunFault.message? : RunFault → Option Bytes
  | .operator b => some (Byte.asChar b)
  | .missing | .outside => none

namespace Expr

/-- Look for what cannot be run, operands before their operator. -/
def check : Expr → Except RunFault Unit
  | .missing => .error .missing
  | .arg .. | .const .. | .temp .. => .ok ()
  | .binary b l r => do
    l.check
    r.check
    if (Operator.ofSymbol? b).isSome then .ok () else .error (.operator b)

variable {K : Type}

/-- The element at any integer position. -/
def lookup (xs : Array K) (i : Int) : Except RunFault K :=
  if i < 0 then .error .outside
  else match xs[i.toNat]? with
    | some x => .ok x
    | none => .error .outside

/-- The value of an expression, given the arguments and the temporaries. -/
def eval (A : Arithmetic K) (args temps : Array K) : Expr → Except RunFault K
  | .missing => .error .missing
  | .arg ref _ => lookup args ref
  | .const text => .ok (A.constant text)
  | .temp n => lookup temps n
  | .binary b l r => do
    let x ← l.eval A args temps
    let y ← r.eval A args temps
    match Operator.ofSymbol? b with
    | some op => .ok (A.operate op x y)
    | none => .error (.operator b)

end Expr

namespace Program

variable {K : Type}

def check (p : Program) : Except RunFault Unit := do
  p.assigns.forM fun a => a.expr.check
  p.re.check
  p.im.check

/-- Carry out one assignment. -/
def assign (A : Arithmetic K) (args temps : Array K) (a : Assign) : Except RunFault (Array K) := do
  let x ← a.expr.eval A args temps
  if 0 ≤ a.temp ∧ a.temp < temps.size then .ok (temps.setIfInBounds a.temp.toNat x) else .error .outside

/-- The temporaries before the first assignment. More than `2^45` of them do not fit anywhere, unless the program
assigns as many: an assignment takes more room than a temporary. -/
def frame (A : Arithmetic K) (p : Program) : Except RunFault (Array K) :=
  if 0 ≤ p.temps ∧ (p.temps.toNat ≤ 1 <<< 45 ∨ p.temps.toNat ≤ p.assigns.length) then
    .ok (Array.replicate p.temps.toNat A.zero)
  else .error .outside

/-- The results at the point with components `x` and `y`. -/
def run (A : Arithmetic K) (p : Program) (x y : K) : Except RunFault (K × K) := do
  let temps ← p.assigns.foldlM (assign A #[x, y]) (← p.frame A)
  let re ← p.re.eval A #[x, y] temps
  let im ← p.im.eval A #[x, y] temps
  return (re, im)

/-- Check a program, then run it at one point. -/
def call (A : Arithmetic K) (p : Program) (x y : K) : Except RunFault (K × K) := do
  p.check
  p.run A x y

/-- Check a program, then run it at every point. -/
def evaluate (A : Arithmetic K) (p : Program) (points : List (K × K)) : Except RunFault (List (K × K)) := do
  p.check
  points.mapM fun (x, y) => p.run A x y

end Program

end ComplexFormula
