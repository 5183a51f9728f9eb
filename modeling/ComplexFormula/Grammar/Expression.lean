import ComplexFormula.Grammar.Combinators

/-!
# The grammar of formulas

An expression is terms joined by `+` and `-`, a term is factors joined by `*` and `/`, and a factor is an expression
in parentheses, a number or a name. Blanks may stand before every operator, operand and parenthesis.

A parenthesis holds an expression again. `expression` takes the depth of nesting it may still enter; every level
costs at least the byte of its parenthesis, so the length of the text is always enough.
-/

namespace ComplexFormula.Parser

variable {σ ε α : Type}

/-- An operator with blanks before it, under its description. -/
def operatorSymbol (b : UInt8) : Bytes × Parser σ ε α :=
  (Quoted.double [b], afterBlanks .all (Quoted.double [b]) (symbol b))

def sumOperator : Parser σ ε α := choice [operatorSymbol Operator.add.symbol, operatorSymbol Operator.sub.symbol]

def productOperator : Parser σ ε α := choice [operatorSymbol Operator.mul.symbol, operatorSymbol Operator.div.symbol]

/-- An expression in parentheses. -/
def parenthesized (expression : Parser σ ε α) : Parser σ ε α :=
  enclosed (some (literal [Byte.openParen])) expression
    (some (afterBlanks .all (Quoted.double [Byte.closeParen]) (literal [Byte.closeParen])))

def factorOf (builder : Builder σ ε α) (expression : Parser σ ε α) : Parser σ ε α :=
  afterBlanks .all (bytes "parse.AnyOf") <| choice
    [ (Quoted.double [Byte.openParen] ++ bytes " expression", parenthesized expression),
      (bytes "number", number builder),
      (bytes "name", name builder) ]

def termOf (builder : Builder σ ε α) (expression : Parser σ ε α) : Parser σ ε α :=
  chain builder productOperator (factorOf builder expression)

def expressionOf (builder : Builder σ ε α) (expression : Parser σ ε α) : Parser σ ε α :=
  chain builder sumOperator (termOf builder expression)

/-- Expressions nested less than `depth` deep. -/
def nested (builder : Builder σ ε α) : (depth : Nat) → Parser σ ε α
  | 0 => fun _ s => (.failed ⟨[], .oneOfExpected []⟩ 0, s)
  | depth + 1 => expressionOf builder (nested builder depth)

def expression (builder : Builder σ ε α) : Parser σ ε α := fun text =>
  expressionOf builder (nested builder text.length) text

def term (builder : Builder σ ε α) : Parser σ ε α := fun text => termOf builder (nested builder text.length) text

def factor (builder : Builder σ ε α) : Parser σ ε α := fun text => factorOf builder (nested builder text.length) text

end ComplexFormula.Parser
