import ComplexFormula.Numeral.Reader
import ComplexFormula.Numeral.Writer
import ComplexFormula.Text.Quoted

/-!
# Complex numerals

A complex numeral is a numeral, a numeral followed by `i`, or two numerals joined by a sign and followed by `i`,
with or without one pair of parentheses around it. A part that overflows makes the numeral out of range, but only if
the text is well-formed otherwise.
-/

namespace ComplexFormula.Numeral

inductive ComplexError where
  | malformed (text : Bytes)
  | outOfRange (text : Bytes)
deriving DecidableEq

def ComplexError.message : ComplexError → Bytes
  | .malformed text => bytes "strconv.ParseComplex: parsing " ++ Quoted.double text ++ bytes ": invalid syntax"
  | .outOfRange text => bytes "strconv.ParseComplex: parsing " ++ Quoted.double text ++ bytes ": value out of range"

/-- The text without one pair of parentheses around it. -/
def unparenthesized (text : Bytes) : Bytes :=
  if 2 ≤ text.length ∧ text.head? = some Byte.openParen ∧ text.getLast? = some Byte.closeParen then
    (text.drop 1).dropLast
  else text

/-- Where the imaginary part starts: a plus that no second plus follows is skipped, a minus belongs to the part. -/
def imaginaryPart? : Bytes → Option Bytes
  | Byte.plus :: Byte.plus :: rest => some (Byte.plus :: Byte.plus :: rest)
  | Byte.plus :: b :: rest => some (b :: rest)
  | [Byte.plus] => some [Byte.plus]
  | Byte.minus :: rest => some (Byte.minus :: rest)
  | _ => none

/-- The real and the imaginary part of a complex numeral. -/
def complexForms? (text : Bytes) : Option (Form × Form) := do
  let text := unparenthesized text
  let first ← front? text
  match text.drop first.used with
  | [] => some (first.form, .scaled false 10 0 0)
  | [Byte.letterI] => some (.scaled false 10 0 0, first.form)
  | rest =>
    let rest ← imaginaryPart? rest
    let second ← front? rest
    if rest.drop second.used = [Byte.letterI] then some (first.form, second.form) else none

def readComplex (text : Bytes) : Except ComplexError (Binary64 × Binary64) :=
  match complexForms? text with
  | some (re, im) => if re.overflows || im.overflows then .error (.outOfRange text) else .ok (re.value, im.value)
  | none => .error (.malformed text)

/-- A complex number in parentheses, the imaginary part always with a sign. -/
def writeComplex (re im : Binary64) : Bytes :=
  let text := write im
  let signed := if text.head? = some Byte.plus ∨ text.head? = some Byte.minus then text else Byte.plus :: text
  [Byte.openParen] ++ write re ++ signed ++ [Byte.letterI, Byte.closeParen]

end ComplexFormula.Numeral
