import ComplexFormula.Proofs.Grammar.ParseTree

/-!
# What a text comes to, whatever is built

Reading a text finds a tree at its front, or stops after some trees were complete (`Scan`). The functions below are
the readers of the three levels of the grammar with the builder taken out: they say what is found and what is wrong
with the text, but build nothing. That every reader does what its scan says is shown in `Answers`.
-/

namespace ComplexFormula

/-! ## Failures that no builder causes -/

def Cause.map {ε ε' : Type} (f : ε → ε') : Cause ε → Cause ε'
  | .literalExpected text => .literalExpected text
  | .numberExpected => .numberExpected
  | .wordExpected => .wordExpected
  | .badCharacter => .badCharacter
  | .oneOfExpected descriptions => .oneOfExpected descriptions
  | .operatorExpected kind => .operatorExpected kind
  | .malformedNumber text => .malformedNumber text
  | .unexpected b => .unexpected b
  | .refused error => .refused (f error)

/-- The same failure with other errors of the builder. -/
def Failure.map {ε ε' : Type} (f : ε → ε') (why : Failure ε) : Failure ε' := ⟨why.labels, why.cause.map f⟩

/-- A failure of the text alone, for a builder with any errors. -/
def Failure.lift {ε : Type} (why : Failure Empty) : Failure ε := why.map Empty.elim

/-- Such a failure has one text, however the builder describes its errors. -/
theorem Failure.message_lift {ε : Type} (describe : ε → Bytes) (why : Failure Empty) :
    why.lift.message describe = why.message Empty.elim := by
  obtain ⟨labels, cause⟩ := why
  cases cause with
  | refused error => exact error.elim
  | _ => rfl

inductive Scan where
  | found (tree : ParseTree) (used : Nat)
  /-- `trees` were complete by then, in the order of the text. -/
  | stopped (trees : List ParseTree) (why : Failure Empty) (used : Nat)

namespace Scan

def trees : Scan → List ParseTree
  | .found x _ => [x]
  | .stopped xs _ _ => xs

/-! ## Operators and chains -/

/-- One of the given operators at the front, behind blanks, and the bytes up to its end. -/
def operator? (ops : List Operator) (text : Bytes) : Option (Operator × Nat) :=
  let skipped := Blanks.all.count text
  (ops.find? fun op => (text.drop skipped).head? = some op.symbol).map fun op => (op, skipped + 1)

theorem operator?_eq_some {ops : List Operator} {text : Bytes} {o : Operator} {n : Nat}
    (h : operator? ops text = some (o, n)) :
    o ∈ ops ∧ n = Blanks.all.count text + 1 ∧ ∃ rest, text.drop (Blanks.all.count text) = o.symbol :: rest := by
  obtain ⟨o', hfind, hpair⟩ := Option.map_eq_some_iff.1 h
  cases hpair
  have hhead := List.find?_some hfind
  exact ⟨List.mem_of_find?_eq_some hfind, rfl, List.head?_eq_some_iff.1 (by simpa using hhead)⟩

/-- Go on after `left`, which ended `used` bytes after the start. -/
def chainGo (ops : List Operator) (arg : Bytes → Scan) :
    (turns : Nat) → (text : Bytes) → (left : ParseTree) → (used : Nat) → Scan
  | 0, _, left, used => .found left used
  | turns + 1, text, left, used =>
    match operator? ops text with
    | none => .found left used
    | some (op, n) =>
      match arg (text.drop n) with
      | .stopped xs why m => .stopped (left :: xs) (why.under (bytes "arg")) (used + n + m)
      | .found right m => chainGo ops arg turns (text.drop (n + m)) (.operation op left right) (used + n + m)

def chain (ops : List Operator) (arg : Bytes → Scan) (text : Bytes) : Scan :=
  match arg text with
  | .stopped xs why used => .stopped xs (why.under (bytes "first arg")) used
  | .found x used => chainGo ops arg (text.drop used).length (text.drop used) x used

/-! ## Factors -/

/-- The description of an expression in parentheses. -/
def parenthesisDescription : Bytes := Quoted.double [Byte.openParen] ++ bytes " expression"

/-- What a factor may begin with. -/
def alternatives : List Bytes := [parenthesisDescription, bytes "number", bytes "name"]

/-- The only alternative that could be taken failed. If it used nothing, it was not taken either. -/
def declined (description : Bytes) (xs : List ParseTree) (why : Failure Empty) (used : Nat) : Scan :=
  if used = 0 then .stopped xs ⟨[], .oneOfExpected alternatives⟩ 0 else .stopped xs (why.under description) used

/-- What follows an opening parenthesis. -/
def parenthesized (expression : Bytes → Scan) (inner : Bytes) : Scan :=
  match expression inner with
  | .stopped xs why used =>
    declined parenthesisDescription xs (why.under (bytes "of")) (if used = 0 then 0 else 1 + used)
  | .found x used =>
    let skipped := Blanks.all.count (inner.drop used)
    if ((inner.drop used).drop skipped).head? = some Byte.closeParen then .found x (1 + used + (skipped + 1))
    else
      let missing : Failure Empty := ⟨[Quoted.double [Byte.closeParen]], .literalExpected [Byte.closeParen]⟩
      declined parenthesisDescription [x] (missing.under (bytes "post")) (1 + used)

def number (text : Bytes) : Scan :=
  let n := Parser.numberLength text
  if (Numeral.form? (text.take n)).isSome then .found (.number (text.take n)) n
  else declined (bytes "number") [] ⟨[bytes "number"], .malformedNumber (text.take n)⟩ n

def name (text : Bytes) : Scan :=
  match text with
  | [] => declined (bytes "name") [] ⟨[], .wordExpected⟩ 0
  | b :: rest =>
    if Byte.isLetter b then
      match Parser.wordTail rest with
      | (n, true) => .found (.name (text.take (n + 1))) (n + 1)
      | (n, false) => declined (bytes "name") [] ⟨[], .badCharacter⟩ (n + 1)
    else declined (bytes "name") [] ⟨[], .wordExpected⟩ 0

/-- A factor at the front, without blanks before it. -/
def atom (expression : Bytes → Scan) (text : Bytes) : Scan :=
  if text.head? = some Byte.openParen then parenthesized expression text.tail
  else if Parser.numberLength text = 0 then name text
  else number text

/-- The same behind blanks, which count only if something else was used. -/
def behindBlanks (skipped : Nat) : Scan → Scan
  | .found x used => .found x (skipped + used)
  | .stopped xs why used => .stopped xs (why.under (bytes "parse.AnyOf")) (if used = 0 then 0 else skipped + used)

def factor (expression : Bytes → Scan) (text : Bytes) : Scan :=
  let skipped := Blanks.all.count text
  behindBlanks skipped (atom expression (text.drop skipped))

/-! ## Levels -/

def productOperators : List Operator := [.mul, .div]

def sumOperators : List Operator := [.add, .sub]

def term (expression : Bytes → Scan) : Bytes → Scan := chain productOperators (factor expression)

def sum (expression : Bytes → Scan) : Bytes → Scan := chain sumOperators (term expression)

/-- Expressions nested less than `depth` deep. -/
def nested : (depth : Nat) → Bytes → Scan
  | 0 => fun _ => .stopped [] ⟨[], .oneOfExpected []⟩ 0
  | depth + 1 => sum (nested depth)

def expression (text : Bytes) : Scan := sum (nested text.length) text

/-- What a whole text comes to: its tree, or where and why it is malformed. -/
def conclude (text : Bytes) : Scan → Except (Nat × Failure Empty) ParseTree
  | .stopped _ why used => .error (used, why)
  | .found x used =>
    let position := used + Blanks.all.count (text.drop used)
    match text.drop position with
    | [] => .ok x
    | b :: _ => .error (position, ⟨[], .unexpected b⟩)

theorem conclude_eq_ok {text : Bytes} {scan : Scan} {x : ParseTree} (h : scan.conclude text = .ok x) :
    ∃ used, scan = .found x used ∧ text.drop (used + Blanks.all.count (text.drop used)) = [] := by
  cases scan with
  | stopped xs why used => cases h
  | found x' used =>
    dsimp only [conclude] at h
    split at h
    · rename_i hend
      cases h
      exact ⟨used, rfl, hend⟩
    · cases h

end Scan

end ComplexFormula
