import ComplexFormula.Grammar.Basic

/-!
# Reading whole texts

A text is read if a grammar matches it up to blanks at its end. Errors of the builder come first: the first one is
reported as it is, whatever else is wrong with the text.
-/

namespace ComplexFormula

/-- Why a text was not read. -/
inductive Rejection (ε : Type) where
  /-- The builder's first error. -/
  | refused (error : ε)
  | malformed (position : Nat) (why : Failure ε)
  | fault (f : ParseFault)

variable {σ ε α : Type}

/-- The text of a rejection at a position of the text. -/
def malformedMessage (describe : ε → Bytes) (position : Nat) (why : Failure ε) : Bytes :=
  bytes "syntax error at " ++ decimal position ++ bytes ": " ++ why.message describe

/-- The text of a rejection, if it has one. -/
def Rejection.message? (describe : ε → Bytes) : Rejection ε → Option Bytes
  | .refused error => some (describe error)
  | .malformed position why => some (malformedMessage describe position why)
  | .fault f => f.message?

/-- What an outcome means for the whole text. -/
def conclude (text : Bytes) : Outcome ε α → Option ε → Except (Rejection ε) (Item α)
  | .fault f, _ => .error (.fault f)
  | _, some e => .error (.refused e)
  | .failed why used, none => .error (.malformed used why)
  | .done item used, none =>
    let position := used + Blanks.all.count (text.drop used)
    match text.drop position with
    | [] => .ok item
    | b :: _ => .error (.malformed position ⟨[], .unexpected b⟩)

/-- Read a text with a parser. -/
def Parser.readAll (parser : Parser σ ε α) (text : Bytes) (state : σ) : Except (Rejection ε) (Item α) × σ :=
  match parser text ⟨state, none⟩ with
  | (outcome, s) => (conclude text outcome s.refusal, s.state)

/-- Read a formula and let the builder make of it what it will. -/
def Builder.drive (builder : Builder σ ε α) (text : Bytes) (state : σ) : Except (Rejection ε) α × σ :=
  match (Parser.expression builder).readAll text state with
  | (.ok item, state) =>
    match Parser.operand? builder item with
    | some a => (.ok a, state)
    | none => (.error (.fault .operand), state)
  | (.error e, state) => (.error e, state)

end ComplexFormula
