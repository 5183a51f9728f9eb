import ComplexFormula.Program.Listing
import ComplexFormula.Proofs.Numeral.Decimal
import Mathlib

/-!
# Reading listings

A reader of the sources that programs are printed as, which follows the rules of Go and knows nothing of the printer. A
text is cut into tokens (`tokens`), the tokens into lines (`lines?`), and what a line calculates is read by a machine that
takes one token at a time (`step`): `*` and `/` bind tighter than `+` and `-`, operators of one strength are grouped from
the left, and a minus in front of a literal belongs to it.

Literals stand for exact numbers. Digits alone are octal after a leading zero, all other literals are decimal. The value
of a constant is the binary64 value nearest to it (`Constant.Denotes`); there is none if that would be infinite, and
literals have no negative zero.
-/

namespace ComplexFormula

namespace Source

open Lexeme

/-! ## Literals -/

section Literals

/-- A literal taken apart. -/
structure Literal where
  parts : Parts
  /-- Whether there is neither a point nor an exponent. -/
  integral : Bool

/-- The digits after a point, if there is one, and what follows. -/
def fraction : Bytes → Option Bytes × Bytes
  | Byte.point :: rest =>
    let digits := rest.takeWhile Byte.isDigit
    (some digits, rest.drop digits.length)
  | text => (none, text)

/-- An exponent, if there is one, and what follows. -/
def exponent : Bytes → Option (Bool × Bytes) × Bytes
  | [] => (none, [])
  | b :: rest =>
    if b = Byte.letterE ∨ b = 69 then
      let negative := rest.head? = some Byte.minus
      let unsigned := if negative ∨ rest.head? = some Byte.plus then rest.tail else rest
      let digits := unsigned.takeWhile Byte.isDigit
      (some (negative, digits), unsigned.drop digits.length)
    else (none, b :: rest)

/-- A literal at the front of a text and what follows it. -/
def literal? (text : Bytes) : Option (Literal × Bytes) :=
  let whole := text.takeWhile Byte.isDigit
  let f := fraction (text.drop whole.length)
  let e := exponent f.2
  if (whole = [] ∧ f.1.getD [] = []) ∨ e.1.map Prod.snd = some [] then none
  else
    let parts := ⟨whole, f.1.getD [], (e.1.map Prod.fst).getD false, (e.1.map Prod.snd).getD []⟩
    some (⟨parts, f.1.isNone && e.1.isNone⟩, e.2)

/-- The number that a literal stands for. -/
def Literal.value? (l : Literal) : Option Rat :=
  if l.integral ∧ 1 < l.parts.whole.length ∧ l.parts.whole.head? = some Byte.zero then
    if l.parts.whole.all (· < 56) then some (digitsValue 8 l.parts.whole) else none
  else some l.parts.toRat

end Literals

/-! ## Tokens -/

section Tokens

inductive Token where
  /-- A name, which may be qualified. -/
  | word (w : Bytes)
  | literal (q : Rat)
  /-- The sign `:=`. -/
  | define
  /-- Any other sign, the end of a line included. -/
  | mark (b : UInt8)
deriving DecidableEq

def isWordByte (b : UInt8) : Bool := Byte.isLetter b || Byte.isDigit b || b == Byte.point

def closeBrace : UInt8 := 125

def colon : UInt8 := 58

def marks : List UInt8 :=
  [Byte.lineFeed, Byte.openParen, Byte.closeParen, Byte.star, Byte.plus, Byte.comma, Byte.minus, Byte.slash, Byte.equals,
    closeBrace]

def tokens : Bytes → Option (List Token)
  | [] => some []
  | b :: rest =>
    if b = Byte.space ∨ b = Byte.tab then tokens rest
    else if Byte.isLetter b then
      let tail := rest.takeWhile isWordByte
      (tokens (rest.drop tail.length)).map (.word (b :: tail) :: ·)
    else if Byte.isDigit b ∨ b = Byte.point then do
      let (literal, after) ← literal? (b :: rest)
      if _h : after.length ≤ rest.length then
        let q ← literal.value?
        (tokens after).map (.literal q :: ·)
      else none
    else if b = colon ∧ rest.head? = some Byte.equals then (tokens rest.tail).map (.define :: ·)
    else if b ∈ marks then (tokens rest).map (.mark b :: ·)
    else none
termination_by text => text.length
decreasing_by
  all_goals simp only [List.length_cons, List.length_drop, List.length_tail]
  all_goals omega

end Tokens

/-! ## Expressions -/

section Expressions

/-- What is written for a constant. -/
inductive Constant where
  | literal (q : Rat)
  | nan
  | infinity (sign : Rat)
  | copysign (size sign : Rat)
deriving DecidableEq

inductive Tree where
  | parameter (place : Nat)
  | temporary (n : Nat)
  | constant (c : Constant)
  | operation (symbol : UInt8) (left right : Tree)
deriving DecidableEq

/-- The names of the parameters, in their order. -/
def parameters : List Bytes := [bytes "re", bytes "im"]

/-- The number of a temporary. -/
def temporary? : Bytes → Option Nat
  | Byte.letterT :: digits =>
    if digits ≠ [] ∧ digits.all Byte.isDigit ∧ (digits.head? = some Byte.zero → digits.length = 1) then
      some (digitsValue 10 digits)
    else none
  | _ => none

def named? (w : Bytes) : Option Tree :=
  match parameters.idxOf? w with
  | some place => some (.parameter place)
  | none => (temporary? w).map .temporary

/-- What calls stand for: functions of literals. -/
def call? (callee : Bytes) (args : List Tree) : Option Tree :=
  match args with
  | [] => if callee = bytes "math.NaN" then some (.constant .nan) else none
  | [.constant (.literal q)] => if callee = bytes "math.Inf" then some (.constant (.infinity q)) else none
  | [.constant (.literal q), .constant (.literal s)] =>
    if callee = bytes "math.Copysign" then some (.constant (.copysign q s)) else none
  | _ => none

/-- What was read since a parenthesis was opened. -/
structure Frame where
  /-- The function whose arguments are read, if any. -/
  callee : Option Bytes
  /-- What stands before the last comma. -/
  args : List Tree
  /-- The sum so far and the operator after it. -/
  sum : Option (Tree × UInt8)
  /-- The product so far and the operator after it. -/
  product : Option (Tree × UInt8)

namespace Frame

def opened (callee : Option Bytes) : Frame := ⟨callee, [], none, none⟩

def join : Option (Tree × UInt8) → Tree → Tree
  | none, t => t
  | some (l, b), t => .operation b l t

/-- The product that a factor completes. -/
def times (f : Frame) (t : Tree) : Tree := join f.product t

/-- The sum that a factor completes. -/
def plus (f : Frame) (t : Tree) : Tree := join f.sum (f.times t)

/-- What a pair of parentheses stands for. -/
def close? (f : Frame) (args : List Tree) : Option Tree :=
  match f.callee, args with
  | some callee, args => call? callee args
  | none, [t] => some t
  | none, _ => none

end Frame

inductive Mode where
  /-- A factor is expected. -/
  | operand
  /-- A literal is expected, after a minus. -/
  | negative
  /-- The arguments of a function are expected. -/
  | callee (w : Bytes)
  /-- A factor has been read. -/
  | value (t : Tree)

structure State where
  /-- The frames around the innermost one. -/
  outer : List Frame
  frame : Frame
  mode : Mode

namespace State

def start : State := ⟨[], .opened none, .operand⟩

def enter (s : State) (callee : Option Bytes) : State := ⟨s.frame :: s.outer, .opened callee, .operand⟩

def leave (s : State) (args : List Tree) : Option State :=
  match s.outer with
  | [] => none
  | f :: outer => (s.frame.close? args).map fun t => ⟨outer, f, .value t⟩

/-- A sign after a factor. -/
def after (s : State) (t : Tree) (b : UInt8) : Option State :=
  let f := s.frame
  if b = Byte.star ∨ b = Byte.slash then
    some { s with frame := { f with product := some (f.times t, b) }, mode := .operand }
  else if b = Byte.plus ∨ b = Byte.minus then
    some { s with frame := { f with sum := some (f.plus t, b), product := none }, mode := .operand }
  else if b = Byte.comma then
    some { s with frame := ⟨f.callee, f.args ++ [f.plus t], none, none⟩, mode := .operand }
  else if b = Byte.closeParen then s.leave (f.args ++ [f.plus t])
  else none

/-- One token. -/
def step (s : State) (token : Token) : Option State :=
  match s.mode, token with
  | .operand, .literal q => some { s with mode := .value (.constant (.literal q)) }
  | .operand, .word w =>
    match named? w with
    | some t => some { s with mode := .value t }
    | none => some { s with mode := .callee w }
  | .operand, .mark b =>
    if b = Byte.minus then some { s with mode := .negative }
    else if b = Byte.openParen then some (s.enter none)
    else if b = Byte.closeParen ∧ s.frame.callee.isSome ∧ s.frame.args = [] ∧ s.frame.sum = none ∧
      s.frame.product = none then s.leave []
    else none
  | .negative, .literal q => some { s with mode := .value (.constant (.literal (-q))) }
  | .callee w, .mark b => if b = Byte.openParen then some (s.enter (some w)) else none
  | .value t, .mark b => s.after t b
  | _, _ => none

end State

/-- Expressions with commas between them. -/
def expressions? (ts : List Token) : Option (List Tree) :=
  match ts.foldlM State.step .start with
  | some ⟨[], f, .value t⟩ => some (f.args ++ [f.plus t])
  | _ => none

end Expressions

/-! ## Functions -/

section Functions

inductive Statement where
  | assign (n : Nat) (value : Tree)
  /-- The assignment of a temporary to nothing. -/
  | mention (n : Nat)

inductive Line where
  | statement (s : Statement)
  | results (re im : Tree)
  | close

/-- What stands after a name at the beginning of a line. -/
def statement? (w : Bytes) : List Token → Option Statement
  | .define :: ts => do
    let n ← temporary? w
    match ← expressions? ts with
    | [t] => some (.assign n t)
    | _ => none
  | [.mark Byte.equals, .word v] => if w = [Byte.underscore] then (temporary? v).map .mention else none
  | _ => none

def results? (ts : List Token) : Option Line := do
  match ← expressions? ts with
  | [re, im] => some (.results re im)
  | _ => none

def line? : List Token → Option Line
  | .word w :: ts => if w = bytes "return" then results? ts else (statement? w ts).map .statement
  | [.mark b] => if b = closeBrace then some .close else none
  | _ => none

/-- The lines, the tokens of the first one up to here being given. Every line ends. -/
def lines? (line : List Token) : List Token → Option (List Line)
  | [] => if line = [] then some [] else none
  | token :: rest =>
    if token = .mark Byte.lineFeed then do
      let first ← line? line
      let later ← lines? [] rest
      some (first :: later)
    else lines? (line ++ [token]) rest

/-- What a function does. -/
structure Listing where
  statements : List Statement
  re : Tree
  im : Tree

namespace Listing

def ofLines? : List Line → Option Listing
  | [.results re im, .close] => some ⟨[], re, im⟩
  | .statement s :: rest => (ofLines? rest).map fun l => ⟨s :: l.statements, l.re, l.im⟩
  | _ => none

/-- The temporaries that are assigned, with what is assigned to them. -/
def assigns (l : Listing) : List (Nat × Tree) :=
  l.statements.filterMap fun
    | .assign n t => some (n, t)
    | .mention _ => none

/-- What stands in front of the body of a function. -/
def header (name : Bytes) : Bytes := bytes "func " ++ name ++ bytes "(re, im float64) (float64, float64) \x7b\n"

/-- A function of the given name. -/
def ofSource? (name text : Bytes) : Option Listing :=
  if (header name).isPrefixOf text then do
    let ts ← tokens (text.drop (header name).length)
    ofLines? (← lines? [] ts)
  else none

end Listing

end Functions

/-! ## Values of constants -/

section Values

/-- The value nearest to a number. Zero has no sign. -/
def RoundsTo (q : Rat) (v : Binary64) : Prop :=
  ∃ m, Magnitude.IsNearest |q| m ∧ ¬m.isInfinite ∧ v = .number (decide (q < 0) && !m.isZero) m

theorem RoundsTo.unique {q : Rat} {v v' : Binary64} (h : RoundsTo q v) (h' : RoundsTo q v') : v = v' := by
  obtain ⟨m, hm, -, rfl⟩ := h
  obtain ⟨m', hm', -, rfl⟩ := h'
  rw [hm.unique hm']

inductive Constant.Denotes : Constant → Binary64 → Prop
  | literal {q : Rat} {v : Binary64} (h : RoundsTo q v) : Denotes (.literal q) v
  | nan : Denotes .nan .nan
  | infinity (sign : Rat) : Denotes (.infinity sign) (.number (decide (sign < 0)) .infinity)
  | copysign {q s : Rat} {n n' : Bool} {m m' : Magnitude} (hq : RoundsTo q (.number n m))
      (hs : RoundsTo s (.number n' m')) : Denotes (.copysign q s) (.number n' m)

end Values

end Source

end ComplexFormula
