import ComplexFormula.BitSet
import ComplexFormula.Numeral.Reader
import ComplexFormula.Numeral.Writer
import ComplexFormula.Program.Basic

/-!
# Programs as Go source

A program is printed as a function of two parameters, one statement a line. Operations inside others get parentheses.

Constants keep their text where it means the same number in Go. The others are replaced: there are no literals for
NaN, the infinities and the negative zero; a literal zero may not divide; a literal that underflows is written as
zero; and digits after a leading zero would be octal. A temporary that the results do not depend on is mentioned
once more, since Go refuses unused variables.
-/

namespace ComplexFormula

/-! ## Constants -/

/-- How a constant is written. -/
inductive ConstantForm where
  | nan
  | infinity (negative : Bool)
  /-- A zero whose sign is given by a call. -/
  | signedZero (negative : Bool)
  | literal (text : Bytes)
deriving DecidableEq

namespace ConstantForm

/-- The form of a constant, which may stand as the divisor of a quotient. -/
def of (text : Bytes) (divisor : Bool) : ConstantForm :=
  match Numeral.read text with
  | .nan => .nan
  | .number negative m =>
    if m.isInfinite then .infinity negative
    else if m.isZero then
      if negative then .signedZero true else if divisor then .signedZero false else .literal [Byte.zero]
    else if 1 < text.length ∧ text.head? = some Byte.zero ∧ text.all Byte.isDigit then
      .literal (Numeral.write (.number negative m))
    else .literal text

def text : ConstantForm → Bytes
  | .nan => bytes "math.NaN()"
  | .infinity false => bytes "math.Inf(1)"
  | .infinity true => bytes "math.Inf(-1)"
  | .signedZero true => bytes "math.Copysign(0, -1)"
  | .signedZero false => bytes "math.Copysign(0, 1)"
  | .literal text => text

/-- Whether the form is a call into package `math`. -/
def isCall : ConstantForm → Bool
  | .literal _ => false
  | .nan | .infinity _ | .signedZero _ => true

end ConstantForm

/-! ## Expressions -/

def temporaryName (n : Int) : Bytes := Byte.letterT :: decimalInt n

namespace Expr

/-- Whether no part is missing. -/
def isComplete : Expr → Bool
  | .missing => false
  | .arg .. | .const .. | .temp .. => true
  | .binary _ l r => l.isComplete && r.isComplete

/-- The text of an expression, in parentheses if it is an operation inside another one. -/
def source (nested divisor : Bool) : Expr → Bytes
  | .missing => []
  | .arg _ name => name
  | .const text => (ConstantForm.of text divisor).text
  | .temp n => temporaryName n
  | .binary b l r =>
    let body := l.source true false ++ [Byte.space, b, Byte.space] ++ r.source true (b = Operator.div.symbol)
    if nested then [Byte.openParen] ++ body ++ [Byte.closeParen] else body

/-- Whether the text of an expression calls into package `math`. -/
def callsMath (divisor : Bool) : Expr → Bool
  | .missing | .arg .. | .temp .. => false
  | .const text => (ConstantForm.of text divisor).isCall
  | .binary b l r => l.callsMath false || r.callsMath (b = Operator.div.symbol)

/-- Add the temporaries of an expression to a set. A negative one has no place there. -/
def collect (needed : BitSet) : Expr → Option BitSet
  | .missing | .arg .. | .const .. => some needed
  | .temp n => needed.insert? n
  | .binary _ l r => do
    let needed ← l.collect needed
    r.collect needed

end Expr

/-- Add the temporaries of an assignment to a set that has its own. -/
def Assign.collect (needed : BitSet) (a : Assign) : Option BitSet := do
  if ← needed.contains? a.temp then a.expr.collect needed else some needed

/-! ## Programs -/

namespace Program

/-- An empty set with room for the temporaries. Too many of them fit nowhere, unless the program assigns as many: an
assignment takes more room than its temporary in the set. -/
def room? (p : Program) : Option BitSet :=
  if p.temps ≤ p.assigns.length then some (.withRoom p.temps) else BitSet.withRoom? p.temps

/-- The temporaries that the results depend on, found backwards from the results. -/
def needed? (p : Program) : Option BitSet := do
  let needed ← p.room?
  let needed ← p.re.collect needed
  let needed ← p.im.collect needed
  p.assigns.reverse.foldlM Assign.collect needed

def isComplete (p : Program) : Bool := p.assigns.all (·.expr.isComplete) && p.re.isComplete && p.im.isComplete

def callsMath (p : Program) : Bool :=
  p.assigns.any (·.expr.callsMath false) || p.re.callsMath false || p.im.callsMath false

/-- The lines of an assignment. -/
def assignSource (needed : BitSet) (a : Assign) : Bytes :=
  let name := temporaryName a.temp
  [Byte.tab] ++ name ++ bytes " := " ++ a.expr.source false false ++ [Byte.lineFeed]
    ++ if needed.contains a.temp.toNat then [] else bytes "\t_ = " ++ name ++ [Byte.lineFeed]

/-- The text of the function, the temporaries that the results depend on being given. -/
def functionSource (p : Program) (needed : BitSet) (name : Bytes) : Bytes :=
  bytes "func " ++ name ++ bytes "(re, im float64) (float64, float64) \x7b\n"
    ++ p.assigns.flatMap (assignSource needed)
    ++ bytes "\treturn " ++ p.re.source false false ++ bytes ", " ++ p.im.source false false ++ bytes "\n\x7d\n"

/-- The function, if nothing in the program stands in the way of printing it. -/
def function? (p : Program) (name : Bytes) : Option Bytes :=
  match p.needed? with
  | some needed => if p.isComplete then some (p.functionSource needed name) else none
  | none => none

/-- The function after `onto`. -/
def appendSource? (p : Program) (onto name : Bytes) : Option Bytes := (p.function? name).map (onto ++ ·)

/-- A file with the function in it after `onto`. Package `math` is imported if the function calls into it. -/
def appendFile? (p : Program) (onto package name : Bytes) : Option Bytes :=
  (p.function? name).map fun function =>
    onto ++ bytes "package " ++ package ++ bytes "\n\n"
      ++ (if p.callsMath then bytes "import \"math\"\n\n" else []) ++ function

end Program

end ComplexFormula
