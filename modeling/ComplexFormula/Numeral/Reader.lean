import ComplexFormula.Binary64.Basic
import ComplexFormula.Text.Bytes

/-!
# Reading numerals

A numeral is an optional sign followed by `inf`, `infinity` or `nan` in any case (`nan` without a sign), by decimal
digits with an optional point and an optional exponent, or by `0x`, hexadecimal digits with an optional point and a
binary exponent, which must be there. Digits may be separated by underscores.

Reading has two halves. `front?` and `form?` say what a numeral at the front of a text, or a text that is one,
stands for exactly; `Form.value` rounds that to the nearest binary64 value. `read` gives a text that is no numeral
the value zero.

The places of a decimal numeral are limited: of more than eight hundred digits before the point those beyond are not
counted as places, unless the first nineteen digits alone settle the value (`uncounted`). Readers differ in what they
settle in this way. Some give up on half-way points, on numbers that overflow or are subnormal, and on some products
that are exact, and lose places there too. This one decides by the nearest values alone (`isSettled`).
-/

namespace ComplexFormula.Numeral

/-! ## Digits -/

/-- The value of a hexadecimal digit. -/
def hexValue? (b : UInt8) : Option Nat :=
  let c := Byte.toLower b
  if Byte.isDigit b then some (b.toNat - 48)
  else if 97 ≤ c && c ≤ 102 then some (c.toNat - 87)
  else none

def isDigitOf (hex : Bool) (b : UInt8) : Bool := if hex then (hexValue? b).isSome else Byte.isDigit b

/-- The number that digits denote; underscores count for nothing. -/
def valueOf (base : Nat) (digits : Bytes) : Nat :=
  digits.foldl (fun v b => if b = Byte.underscore then v else base * v + (hexValue? b).getD 0) 0

/-- The bytes at the front that are digits or underscores. -/
def digitRun (hex : Bool) (text : Bytes) : Bytes := text.takeWhile fun b => isDigitOf hex b || b == Byte.underscore

def countDigits (run : Bytes) : Nat := run.countP (· != Byte.underscore)

/-! ## Underscores -/

/-- What stands before an underscore, or before the end. -/
inductive Before where
  | digit
  | underscore
  | other
deriving DecidableEq

/-- An underscore stands between two digits. -/
def separated (hex : Bool) : Before → Bytes → Bool
  | before, [] => before != .underscore
  | before, b :: rest =>
    if isDigitOf hex b then separated hex .digit rest
    else if b = Byte.underscore then before == .digit && separated hex .underscore rest
    else before != .underscore && separated hex .other rest

/-- Underscores stand between digits; the mark of a base counts as a digit. -/
def underscoresSeparate (unsigned : Bytes) : Bool :=
  match unsigned with
  | Byte.zero :: mark :: rest =>
    match Byte.toLower mark with
    | Byte.letterB => separated false .digit rest
    | Byte.letterO => separated false .digit rest
    | Byte.letterX => separated true .digit rest
    | _ => separated false .other unsigned
  | _ => separated false .other unsigned

/-! ## The parts of a numeral -/

/-- A sign at the front: whether it is a minus, and how many bytes it takes. -/
def sign : Bytes → Bool × Nat
  | Byte.plus :: _ => (false, 1)
  | Byte.minus :: _ => (true, 1)
  | _ => (false, 0)

/-- The length of the common beginning of `text` and `word`, where capitals of the text count as small letters. -/
def commonLength : (text word : Bytes) → Nat
  | b :: text, c :: word => if Byte.toLower b = c then commonLength text word + 1 else 0
  | _, _ => 0

/-- What a numeral stands for. -/
inductive Form where
  | infinity (negative : Bool)
  | nan
  /-- The number `coefficient * base ^ exponent` with a sign. -/
  | scaled (negative : Bool) (base coefficient : Nat) (exponent : Int)
deriving DecidableEq

/-- A numeral at the front of a text: what it stands for and the number of bytes it takes. -/
structure Reading where
  form : Form
  used : Nat
deriving DecidableEq

/-- The numerals that have no digits. -/
def verbal? (text : Bytes) : Option Reading :=
  let (negative, signed) := sign text
  let n := commonLength (text.drop signed) (bytes "infinity")
  if n = 8 then some ⟨.infinity negative, signed + 8⟩
  else if 3 ≤ n then some ⟨.infinity negative, signed + 3⟩
  else if signed = 0 ∧ commonLength text (bytes "nan") = 3 then some ⟨.nan, 3⟩
  else none

/-- The value of an exponent. No digit is counted once the value has reached 10000: no numeral of sensible length is
finite and non-zero from there on. -/
def exponentValue (digits : Bytes) : Nat :=
  digits.foldl (fun e b => if b = Byte.underscore ∨ 10000 ≤ e then e else e * 10 + (b.toNat - 48)) 0

/-- An exponent, whose mark is given as a small letter: its value and the bytes it takes. No mark means no exponent; a
mark without digits is an error. -/
def exponent? (mark : UInt8) : Bytes → Option (Int × Nat)
  | [] => some (0, 0)
  | b :: rest =>
    if Byte.toLower b = mark then
      let (negative, signed) := sign rest
      let digits := digitRun false (rest.drop signed)
      if (digits.head?.map Byte.isDigit).getD false then
        let e := exponentValue digits
        some (if negative then -(e : Int) else e, 1 + signed + digits.length)
      else none
    else some (0, 0)

/-- The digits of a numeral, their place value and their length in bytes. -/
structure Digits where
  whole : Bytes
  fraction : Bytes
  used : Nat

/-- Digits with an optional point. -/
def digits (hex : Bool) (text : Bytes) : Digits :=
  let whole := digitRun hex text
  match text.drop whole.length with
  | Byte.point :: rest =>
    let fraction := digitRun hex rest
    ⟨whole, fraction, whole.length + 1 + fraction.length⟩
  | _ => ⟨whole, [], whole.length⟩

/-- Whether digits in base sixteen follow: the mark `0x` with something after it. -/
def isHex : Bytes → Bool
  | Byte.zero :: mark :: _ :: _ => Byte.toLower mark == Byte.letterX
  | _ => false

/-! ## Long numerals -/

/-- The digits that can settle a value. -/
def leadingDigits : Nat := 19

/-- The digits before the point that are always counted as places. -/
def countedDigits : Nat := 800

/-- Whether a decimal whose first digits come to `lead * 10 ^ exponent` has one value whatever digits follow. If only
zeros follow it is not `inexact`, and there is nothing to settle: not even a half-way point is doubtful then. -/
def isSettled (lead : Nat) (inexact : Bool) (exponent : Int) : Bool :=
  !inexact || Magnitude.ofScaled 10 (lead + 1) exponent == Magnitude.ofScaled 10 lead exponent

/-- The number of digits before the point of a decimal numeral that are not counted as places. Zeros in front do not
matter, and the exponent is the one that is written. -/
def uncounted (ds : Digits) (exponent : Int) : Nat :=
  let significant := (ds.whole.filter (· != Byte.underscore)).dropWhile (· == Byte.zero)
  let lead := valueOf 10 (significant.take leadingDigits)
  let inexact := (significant.drop leadingDigits ++ ds.fraction).any fun b => b != Byte.zero && b != Byte.underscore
  if significant.length ≤ countedDigits then 0
  else if isSettled lead inexact (exponent + significant.length - leadingDigits) then 0
  else significant.length - countedDigits

/-! ## Numerals -/

/-- The numerals that have digits. -/
def positional? (text : Bytes) : Option Reading := do
  let (negative, signed) := sign text
  let unsigned := text.drop signed
  let hex := isHex unsigned
  let marked := if hex then 2 else 0
  let base := if hex then 16 else 10
  let ds := digits hex (unsigned.drop marked)
  if countDigits ds.whole + countDigits ds.fraction = 0 then none
  let (e, tail) ← exponent? (if hex then Byte.letterP else Byte.letterE) (unsigned.drop (marked + ds.used))
  if hex ∧ tail = 0 then none
  let used := marked + ds.used + tail
  if (unsigned.take used).contains Byte.underscore ∧ ¬underscoresSeparate (unsigned.take used) then none
  let coefficient := valueOf base (ds.whole ++ ds.fraction)
  let places := countDigits ds.fraction
  -- A hexadecimal place is worth four binary ones.
  let form : Form := if hex then .scaled negative 2 coefficient (e - 4 * places)
    else .scaled negative 10 coefficient (e - places - uncounted ds e)
  some ⟨form, signed + used⟩

/-! ## Reading -/

/-- The numeral at the front of a text. -/
def front? (text : Bytes) : Option Reading := verbal? text <|> positional? text

/-- What a text that is a numeral stands for. -/
def form? (text : Bytes) : Option Form :=
  match front? text with
  | some r => if r.used = text.length then some r.form else none
  | none => none

namespace Form

/-- The nearest value. -/
def value : Form → Binary64
  | .infinity negative => .number negative .infinity
  | .nan => .nan
  | .scaled negative base coefficient exponent => .number negative (.ofScaled base coefficient exponent)

/-- Whether a number is too large to have a finite value. -/
def overflows : Form → Bool
  | .infinity _ | .nan => false
  | .scaled _ base coefficient exponent => (Magnitude.ofScaled base coefficient exponent).isInfinite

end Form

/-- The value of a text that is a numeral. -/
def read? (text : Bytes) : Option Binary64 := (form? text).map Form.value

/-- The value of a constant; a text that is no numeral stands for zero. -/
def read (text : Bytes) : Binary64 := (read? text).getD .zero

end ComplexFormula.Numeral
