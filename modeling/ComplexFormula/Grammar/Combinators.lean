import ComplexFormula.Grammar.Blanks
import ComplexFormula.Grammar.Builder
import ComplexFormula.Grammar.Outcome
import ComplexFormula.Numeral.Reader

/-!
# Parsers and their combinators

A parser takes the rest of a text and a session, which is the builder's state together with the first error the
builder has raised. Positions are relative: an outcome tells how many bytes of the rest were used.

A failure that used no byte is a choice not taken. `choice` tries every alternative; among failures that did use
something it keeps the first, but an alternative that succeeds later still wins. `chain` goes on while the operator
uses something, and is content with what it has otherwise.
-/

namespace ComplexFormula

structure Session (σ ε : Type) where
  state : σ
  /-- The first error of the builder. -/
  refusal : Option ε

/-- Let the builder work, and remember its first error. -/
def Session.call {σ ε α : Type} (s : Session σ ε) (work : Build σ ε α) : Except ε α × Session σ ε :=
  match work.run.run s.state with
  | (.ok a, state) => (.ok a, ⟨state, s.refusal⟩)
  | (.error e, state) => (.error e, ⟨state, s.refusal <|> some e⟩)

abbrev Parser (σ ε α : Type) := Bytes → Session σ ε → Outcome ε α × Session σ ε

namespace Parser

variable {σ ε α : Type}

/-! ## Words and numbers -/

/-- How many bytes a word goes on, and whether it ends well: a byte that starts no character, and the replacement
character, end it badly. -/
def wordTail : Bytes → Nat × Bool
  | [] => (0, true)
  | b :: rest =>
    if Byte.isLetter b || Byte.isDigit b then
      let (n, ok) := wordTail rest
      (n + 1, ok)
    else if b < 128 then (0, true)
    else match Utf8.first? (b :: rest) with
      | none => (0, false)
      | some (c, width) =>
        if c.toNat = 0xFFFD then (0, false)
        else
          let (n, ok) := wordTail (rest.drop (width - 1))
          (n + width, ok)
termination_by text => text.length
decreasing_by all_goals (simp only [List.length_drop, List.length_cons]; omega)

/-- How many bytes the exponent of a number takes. A mark without digits is no exponent. -/
def exponentLength : Bytes → Nat
  | [] => 0
  | mark :: rest =>
    if Byte.toLower mark = Byte.letterE then
      let signed := (Numeral.sign rest).2
      let digits := (rest.drop signed).takeWhile Byte.isDigit
      if digits = [] then 0 else 1 + signed + digits.length
    else 0

/-- How many bytes the number at the front of a text takes: none if there is no number. -/
def numberLength (text : Bytes) : Nat :=
  let whole := text.takeWhile Byte.isDigit
  match text.drop whole.length with
  | Byte.point :: rest =>
    let fraction := rest.takeWhile Byte.isDigit
    if whole = [] ∧ fraction = [] then 0
    else whole.length + 1 + fraction.length + exponentLength (rest.drop fraction.length)
  | rest => if whole = [] then 0 else whole.length + exponentLength rest

/-! ## Leaves -/

def literal (expected : Bytes) : Parser σ ε α := fun text s =>
  if expected.isPrefixOf text then (.done (.literal expected) expected.length, s)
  else (.failed ⟨[], .literalExpected expected⟩ 0, s)

/-- A letter or underscore, followed by letters, digits, underscores and characters beyond ASCII. -/
def word : Parser σ ε α := fun text s =>
  match text with
  | [] => (.failed ⟨[], .wordExpected⟩ 0, s)
  | b :: rest =>
    if Byte.isLetter b then
      match wordTail rest with
      | (n, true) => (.done (.word (text.take (n + 1))) (n + 1), s)
      | (n, false) => (.failed ⟨[], .badCharacter⟩ (n + 1), s)
    else (.failed ⟨[], .wordExpected⟩ 0, s)

/-- Pass a text to the builder; a refusal gets a label. -/
def offer (label : Bytes) (work : Build σ ε α) (used : Nat) (s : Session σ ε) : Outcome ε α × Session σ ε :=
  match s.call work with
  | (.ok a, s) => (.done (.value a) used, s)
  | (.error e, s) => (.failed ⟨[label], .refused e⟩ used, s)

def number (builder : Builder σ ε α) : Parser σ ε α := fun text s =>
  match numberLength text with
  | 0 => (.failed ⟨[], .numberExpected⟩ 0, s)
  | n =>
    if (Numeral.form? (text.take n)).isSome then offer (bytes "number") (builder.number (text.take n)) n s
    else (.failed ⟨[bytes "number"], .malformedNumber (text.take n)⟩ n, s)

def name (builder : Builder σ ε α) : Parser σ ε α := fun text s =>
  match word text s with
  | (.done (.word id) n, s) => offer (bytes "name") (builder.name id) n s
  | other => other

def symbol (b : UInt8) : Parser σ ε α := fun text s =>
  match text with
  | c :: _ => if b = c then (.done (.symbol b) 1, s) else (.failed ⟨[], .literalExpected [b]⟩ 0, s)
  | [] => (.failed ⟨[], .literalExpected [b]⟩ 0, s)

/-! ## Combinators -/

/-- Try the alternatives in turn; `kept` is the first failure that used something. -/
def choiceGo (descriptions : List Bytes) (text : Bytes) :
    List (Bytes × Parser σ ε α) → Option (Failure ε × Nat) → Session σ ε → Outcome ε α × Session σ ε
  | [], some (why, used), s => (.failed why used, s)
  | [], none, s => (.failed ⟨[], .oneOfExpected descriptions⟩ 0, s)
  | (description, parser) :: rest, kept, s =>
    match parser text s with
    | (.failed why used, s) =>
      choiceGo descriptions text rest (if used = 0 then kept else kept <|> some (why.under description, used)) s
    | other => other

/-- The first alternative that succeeds. Alternatives come with their descriptions. -/
def choice (alternatives : List (Bytes × Parser σ ε α)) : Parser σ ε α := fun text s =>
  choiceGo (alternatives.map (·.1)) text alternatives none s

/-- What stands at the front, if a parser is given for it. Its item is dropped. -/
def opening (pre : Option (Parser σ ε α)) : Bytes → Session σ ε → Except (Outcome ε α) Nat × Session σ ε :=
  fun text s =>
    match pre with
    | none => (.ok 0, s)
    | some parser =>
      match parser text s with
      | (.done _ used, s) => (.ok used, s)
      | (.failed why used, s) => (.error (.failed (why.under (bytes "pre")) used), s)
      | (.fault f, s) => (.error (.fault f), s)

/-- Something between an opening and a closing part. A failure right after the opening part counts as having used
nothing, so that another alternative may begin with the same opening. -/
def enclosed (pre : Option (Parser σ ε α)) (inner : Parser σ ε α) (post : Option (Parser σ ε α)) : Parser σ ε α :=
  fun text s =>
    match opening pre text s with
    | (.error outcome, s) => (outcome, s)
    | (.ok opened, s) =>
      match inner (text.drop opened) s with
      | (.fault f, s) => (.fault f, s)
      | (.failed why used, s) => (.failed (why.under (bytes "of")) (if used = 0 then 0 else opened + used), s)
      | (.done item used, s) =>
        match post with
        | none => (.done item (opened + used), s)
        | some closing =>
          match closing (text.drop (opened + used)) s with
          | (.fault f, s) => (.fault f, s)
          | (.failed why last, s) => (.failed (why.under (bytes "post")) (opened + used + last), s)
          | (.done _ last, s) => (.done item (opened + used + last), s)

/-- Skip blanks first. If nothing but blanks would be used, a failure counts as having used nothing. -/
def afterBlanks (blanks : Blanks) (description : Bytes) (inner : Parser σ ε α) : Parser σ ε α := fun text s =>
  let skipped := blanks.count text
  match inner (text.drop skipped) s with
  | (.done item used, s) => (.done item (skipped + used), s)
  | (.failed why used, s) => (.failed (why.under description) (if used = 0 then 0 else skipped + used), s)
  | (.fault f, s) => (.fault f, s)

/-- An item as an operand of an operator. -/
def operand? (builder : Builder σ ε α) : Item α → Option α
  | .word text => builder.ofWord text
  | .literal text => builder.ofLiteral text
  | .symbol b => builder.ofSymbol b
  | .value a => some a

/-- An item as an operator. -/
def operator? (builder : Builder σ ε α) : Item α → Option UInt8
  | .word _ | .literal _ => none
  | .symbol b => some b
  | .value a => builder.asSymbol a

/-- What kind of thing an item is, as messages call it. -/
def kind (builder : Builder σ ε α) : Item α → Bytes
  | .word _ => bytes "string"
  | .literal _ => bytes "parse.Const"
  | .symbol _ => bytes "parse.Op"
  | .value a => builder.kind a

/-- Let the builder join two operands by the operator that a byte stands for. -/
def join (builder : Builder σ ε α) (b : UInt8) (left right : Item α) (used : Nat) (s : Session σ ε) :
    Outcome ε α × Session σ ε :=
  match operand? builder left, operand? builder right with
  | some x, some y =>
    match Operator.ofSymbol? b with
    | some op => offer (Quoted.double [b]) (builder.binary op x y) used s
    | none => (.fault (.operator b), s)
  | _, _ => (.fault .operand, s)

/-- Go on after `left`, which ended `used` bytes after the start. Every turn uses at least one byte of `text`, so its
length is enough `turns`. -/
def chainGo (builder : Builder σ ε α) (op arg : Parser σ ε α) :
    (turns : Nat) → (text : Bytes) → (left : Item α) → (used : Nat) → Session σ ε → Outcome ε α × Session σ ε
  | 0, _, left, used, s => (.done left used, s)
  | turns + 1, text, left, used, s =>
    if text = [] then (.done left used, s)
    else
      match op text s with
      | (.fault f, s) => (.fault f, s)
      | (.failed _ 0, s) => (.done left used, s)
      | (.failed why n, s) => (.failed (why.under (bytes "op")) (used + n), s)
      | (.done _ 0, s) => (.done left used, s)
      | (.done item n, s) =>
        match operator? builder item with
        | none => (.failed ⟨[], .operatorExpected (kind builder item)⟩ (used + n), s)
        | some b =>
          match arg (text.drop n) s with
          | (.fault f, s) => (.fault f, s)
          | (.failed why m, s) => (.failed (why.under (bytes "arg")) (used + n + m), s)
          | (.done right m, s) =>
            match join builder b left right (used + n + m) s with
            | (.done item total, s) => chainGo builder op arg turns (text.drop (n + m)) item total s
            | other => other

/-- Operands joined by operators, grouped from the left. -/
def chain (builder : Builder σ ε α) (op arg : Parser σ ε α) : Parser σ ε α := fun text s =>
  match arg text s with
  | (.fault f, s) => (.fault f, s)
  | (.failed why used, s) => (.failed (why.under (bytes "first arg")) used, s)
  | (.done item used, s) => chainGo builder op arg (text.drop used).length (text.drop used) item used s

end Parser

end ComplexFormula
