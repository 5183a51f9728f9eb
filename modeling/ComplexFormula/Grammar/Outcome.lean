import ComplexFormula.Text.Quoted

/-!
# Outcomes of parsing

A parser looks at a text from some position on. It succeeds with an item, fails with a reason, or cannot go on at
all. In the first two cases it also tells how many bytes it used: a failure that used none leaves room for
alternatives.

A failure is a cause under labels, outermost first, which say where in the grammar it happened.
-/

namespace ComplexFormula

/-- What a parser makes of a piece of text. -/
inductive Item (α : Type) where
  | word (text : Bytes)
  | literal (text : Bytes)
  | symbol (b : UInt8)
  | value (a : α)

/-! ## Failures -/

inductive Cause (ε : Type) where
  | literalExpected (text : Bytes)
  | numberExpected
  | wordExpected
  /-- A byte inside a word that starts no character, or the replacement character. -/
  | badCharacter
  | oneOfExpected (descriptions : List Bytes)
  | operatorExpected (kind : Bytes)
  | malformedNumber (text : Bytes)
  /-- A byte after the end of the formula. -/
  | unexpected (b : UInt8)
  /-- The builder said no. -/
  | refused (error : ε)

structure Failure (ε : Type) where
  labels : List Bytes
  cause : Cause ε

namespace Failure

variable {ε : Type}

/-- The same failure, seen from one level further out. -/
def under (label : Bytes) (f : Failure ε) : Failure ε := ⟨label :: f.labels, f.cause⟩

end Failure

/-- A list in words: `a, b or c`. -/
def enumeration : List Bytes → Bytes
  | [] => bytes "<none>"
  | [a] => a
  | [a, b] => a ++ bytes " or " ++ b
  | a :: rest => a ++ bytes ", " ++ enumeration rest

def Cause.message {ε : Type} (describe : ε → Bytes) : Cause ε → Bytes
  | .literalExpected text => Quoted.double text ++ bytes " expected"
  | .numberExpected => bytes "number expected"
  | .wordExpected => bytes "ident expected"
  | .badCharacter => bytes "bad rune"
  | .oneOfExpected descriptions => bytes "expected " ++ enumeration descriptions
  | .operatorExpected kind => bytes "BinOper expected, got " ++ kind
  | .malformedNumber text => bytes "strconv.ParseFloat: parsing " ++ Quoted.double text ++ bytes ": invalid syntax"
  | .unexpected b => bytes "unexpected " ++ Quoted.single b
  | .refused error => describe error

def Failure.message {ε : Type} (describe : ε → Bytes) (f : Failure ε) : Bytes :=
  f.labels.flatMap (· ++ bytes ": ") ++ f.cause.message describe

/-! ## Faults -/

/-- Why a parser cannot go on. -/
inductive ParseFault where
  /-- An operator stands next to something that is no value of the builder. -/
  | operand
  /-- A byte is used as an operator but stands for no operation. -/
  | operator (b : UInt8)
  /-- A position outside the text. -/
  | outside
deriving DecidableEq

/-- The text of a fault, if it has one. -/
def ParseFault.message? : ParseFault → Option Bytes
  | .operator b => some (decimal b.toNat)
  | .operand | .outside => none

/-! ## Outcomes -/

inductive Outcome (ε α : Type) where
  | done (item : Item α) (used : Nat)
  | failed (why : Failure ε) (used : Nat)
  | fault (f : ParseFault)

end ComplexFormula
