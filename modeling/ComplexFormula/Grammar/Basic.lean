import ComplexFormula.Grammar.Expression

/-!
# Grammars

A grammar is built from leaves and combinators in any nesting, with the three levels of the grammar of formulas as
further leaves. `Grammar.parser` is the parser it stands for; `Grammar.description` is what messages call it.
-/

namespace ComplexFormula

inductive Grammar where
  | literal (text : Bytes)
  | word
  | number
  | name
  | symbol (b : UInt8)
  | choice (alternatives : List Grammar)
  | enclosed (pre : Option Grammar) (inner : Grammar) (post : Option Grammar)
  | afterBlanks (blanks : Blanks) (inner : Grammar)
  | chain (op arg : Grammar)
  | expression
  | term
  | factor

namespace Grammar

def description : Grammar → Bytes
  | .literal text => Quoted.double text
  | .word => bytes "parse.Ident"
  | .number => bytes "number"
  | .name => bytes "name"
  | .symbol b => Quoted.double [b]
  | .choice _ => bytes "parse.AnyOf"
  | .enclosed none inner _ => inner.description
  | .enclosed (some pre) inner _ => pre.description ++ bytes " " ++ inner.description
  | .afterBlanks _ inner => inner.description
  | .chain _ _ => bytes "parse.LeftToRight"
  | .expression => bytes "expression"
  | .term => bytes "term"
  | .factor => bytes "factor"

variable {σ ε α : Type}

mutual

def parser (builder : Builder σ ε α) : Grammar → Parser σ ε α
  | .literal text => Parser.literal text
  | .word => Parser.word
  | .number => Parser.number builder
  | .name => Parser.name builder
  | .symbol b => Parser.symbol b
  | .choice alternatives => Parser.choice (parserList builder alternatives)
  | .enclosed pre inner post =>
    Parser.enclosed (parserOption builder pre) (parser builder inner) (parserOption builder post)
  | .afterBlanks blanks inner => Parser.afterBlanks blanks inner.description (parser builder inner)
  | .chain op arg => Parser.chain builder (parser builder op) (parser builder arg)
  | .expression => Parser.expression builder
  | .term => Parser.term builder
  | .factor => Parser.factor builder

/-- The alternatives of a choice with their descriptions. -/
def parserList (builder : Builder σ ε α) : List Grammar → List (Bytes × Parser σ ε α)
  | [] => []
  | g :: rest => (g.description, parser builder g) :: parserList builder rest

def parserOption (builder : Builder σ ε α) : Option Grammar → Option (Parser σ ε α)
  | none => none
  | some g => some (parser builder g)

end

/-! ## Positions outside the text

From a position outside the text nothing can be read. Behind the end a number is missed and blanks are skipped without
looking; before the start only a choice of nothing fails. Everything else cannot go on. -/

mutual

/-- The failure at a position before the start (`before`) or behind the end of a text, if the parser can go on. -/
def outside? (before : Bool) : Grammar → Option (Failure ε)
  | .number => if before then none else some ⟨[], .numberExpected⟩
  | .choice alternatives => (outsideList? before alternatives).map fun names => ⟨[], .oneOfExpected names⟩
  | .enclosed none inner _ => (outside? before inner).map (·.under (bytes "of"))
  | .enclosed (some pre) _ _ => (outside? before pre).map (·.under (bytes "pre"))
  | .afterBlanks _ inner => if before then none else (outside? before inner).map (·.under inner.description)
  | .chain _ arg => (outside? before arg).map (·.under (bytes "first arg"))
  | .literal _ | .word | .name | .symbol _ | .expression | .term | .factor => none

/-- The descriptions of the alternatives, if each of them can go on. -/
def outsideList? (before : Bool) : List Grammar → Option (List Bytes)
  | [] => some []
  | g :: rest =>
    match (outside? before g : Option (Failure ε)), outsideList? before rest with
    | some _, some names => some (g.description :: names)
    | _, _ => none

end

/-- Parse from a position on. The outcome counts bytes from there. -/
def parseAt (builder : Builder σ ε α) (g : Grammar) (text : Bytes) (start : Int) (s : Session σ ε) :
    Outcome ε α × Session σ ε :=
  if 0 ≤ start ∧ start ≤ text.length then g.parser builder (text.drop start.toNat) s
  else
    match g.outside? (start < 0) with
    | some why => (.failed why 0, s)
    | none => (.fault .outside, s)

end Grammar

end ComplexFormula
