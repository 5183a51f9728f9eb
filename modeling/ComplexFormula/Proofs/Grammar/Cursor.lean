import ComplexFormula.Grammar.Basic
import ComplexFormula.Proofs.Grammar.Lexemes
import Mathlib

/-!
# Parsing by position

The parsers of a grammar see only what is left of a text, and their loops and nested expressions are cut off after as many
rounds as there are bytes left. Here is the same reading as a walk over the whole text, with a cursor and without such
limits: `run` has fuel for its calls, and no value (`none`) when the fuel is used up, so that a walk ends if and only if
some fuel is enough (`Settles`). A byte or a slice can be asked for at any position, but outside the text the answer is a
fault (`byteAt`, `slice`).

This module shows what the loops and the leaves of the walk come to; combinators follow in the next.
-/

namespace ComplexFormula

variable {σ ε α β γ : Type}

namespace Cursor

/-! ## Walks -/

section Walks

/-- A computation with a session that may end with a fault or not at all. -/
abbrev Run (σ ε β : Type) := ExceptT ParseFault (StateT (Session σ ε) Option) β

/-- The fuel is used up. -/
def unfinished : Run σ ε β := fun _ => none

/-- Where the cursor stands at the end, and what was found there. -/
structure Ending (ε α : Type) where
  position : Nat
  result : Except (Failure ε) (Item α)

/-- The byte at a position. -/
def byteAt (text : Bytes) (i : Nat) : Run σ ε UInt8 :=
  match text[i]? with
  | some b => pure b
  | none => throw .outside

/-- The bytes from a position up to another. -/
def slice (text : Bytes) (i j : Nat) : Run σ ε Bytes :=
  if i ≤ j ∧ j ≤ text.length then pure ((text.take j).drop i) else throw .outside

/-- The first position from `i` on that holds no byte of a class. -/
def skipWhile (p : UInt8 → Bool) (text : Bytes) (fuel i : Nat) : Run σ ε Nat :=
  match fuel with
  | 0 => unfinished
  | fuel + 1 => do
    if i < text.length then
      let b ← byteAt text i
      if p b then skipWhile p text fuel (i + 1) else return i
    else return i

/-- Where a word ends, and whether it ends well. -/
def wordEnd (text : Bytes) (fuel i : Nat) : Run σ ε (Nat × Bool) :=
  match fuel with
  | 0 => unfinished
  | fuel + 1 => do
    if i < text.length then
      let b ← byteAt text i
      if Byte.isLetter b || Byte.isDigit b then wordEnd text fuel (i + 1)
      else if b < 128 then return (i, true)
      else
        let rest ← slice text i text.length
        match Utf8.first? rest with
        | none => return (i, false)
        | some (c, width) => if c.toNat = 0xFFFD then return (i, false) else wordEnd text fuel (i + width)
    else return (i, true)

/-- Where a fraction ends that may follow, and how many digits it has. -/
def fractionEnd (text : Bytes) (fuel i : Nat) : Run σ ε (Nat × Nat) := do
  if i < text.length then
    let b ← byteAt text i
    if b = Byte.point then
      let j ← skipWhile Byte.isDigit text fuel (i + 1)
      return (j, j - i - 1)
    else return (i, 0)
  else return (i, 0)

def signEnd (text : Bytes) (i : Nat) : Run σ ε Nat := do
  if i < text.length then
    let b ← byteAt text i
    return if b = Byte.plus ∨ b = Byte.minus then i + 1 else i
  else return i

/-- Where an exponent ends that may follow. -/
def exponentEnd (text : Bytes) (fuel i : Nat) : Run σ ε Nat := do
  if i < text.length then
    let b ← byteAt text i
    if Byte.toLower b = Byte.letterE then
      let j ← signEnd text (i + 1)
      let k ← skipWhile Byte.isDigit text fuel j
      return if k = j then i else k
    else return i
  else return i

/-- Let the builder work; a refusal gets a label. -/
def offer (label : Bytes) (work : Build σ ε α) : Run σ ε (Except (Failure ε) (Item α)) := fun s =>
  match s.call work with
  | (.ok a, s) => some (.ok (.ok (.value a)), s)
  | (.error e, s) => some (.ok (.error ⟨[label], .refused e⟩), s)

end Walks

/-! ## Leaves -/

section Leaves

def literal (expected text : Bytes) (start : Nat) : Run σ ε (Ending ε α) := do
  let rest ← slice text start text.length
  if expected.isPrefixOf rest then
    let found ← slice text start (start + expected.length)
    return ⟨start + expected.length, .ok (.literal found)⟩
  else return ⟨start, .error ⟨[], .literalExpected expected⟩⟩

def symbol (b : UInt8) (text : Bytes) (start : Nat) : Run σ ε (Ending ε α) := do
  let e : Ending ε α ← literal [b] text start
  return ⟨e.position, e.result.map fun _ => .symbol b⟩

def word (text : Bytes) (fuel start : Nat) : Run σ ε (Ending ε α) := do
  if start = text.length then return ⟨start, .error ⟨[], .wordExpected⟩⟩
  else
    let b ← byteAt text start
    if Byte.isLetter b then
      let (i, ok) ← wordEnd text fuel (start + 1)
      if ok then
        let id ← slice text start i
        return ⟨i, .ok (.word id)⟩
      else return ⟨i, .error ⟨[], .badCharacter⟩⟩
    else return ⟨start, .error ⟨[], .wordExpected⟩⟩

def name (builder : Builder σ ε α) (text : Bytes) (fuel start : Nat) : Run σ ε (Ending ε α) := do
  let e ← word text fuel start
  match e.result with
  | .ok (.word id) =>
    let result ← offer (bytes "name") (builder.name id)
    return ⟨e.position, result⟩
  | _ => return e

def number (builder : Builder σ ε α) (text : Bytes) (fuel start : Nat) : Run σ ε (Ending ε α) := do
  let whole ← skipWhile Byte.isDigit text fuel start
  let (mantissa, digits) ← fractionEnd text fuel whole
  if whole - start + digits = 0 then return ⟨start, .error ⟨[], .numberExpected⟩⟩
  else
    let i ← exponentEnd text fuel mantissa
    let numeral ← slice text start i
    if (Numeral.form? numeral).isSome then
      let result ← offer (bytes "number") (builder.number numeral)
      return ⟨i, result⟩
    else return ⟨i, .error ⟨[bytes "number"], .malformedNumber numeral⟩⟩

end Leaves

/-! ## Grammars -/

section Grammars

/-- Let the builder join two operands. -/
def join (builder : Builder σ ε α) (b : UInt8) (left right : Item α) : Run σ ε (Except (Failure ε) (Item α)) :=
  match Parser.operand? builder left, Parser.operand? builder right with
  | some x, some y =>
    match Operator.ofSymbol? b with
    | some op => offer (Quoted.double [b]) (builder.binary op x y)
    | none => throw (.operator b)
  | _, _ => throw .operand

/-- Operators with blanks before them. -/
def operators (ops : List Operator) : Grammar := .choice (ops.map fun op => .afterBlanks .all (.symbol op.symbol))

/-- An expression in parentheses. -/
def parenthesized : Grammar :=
  .enclosed (some (.literal [Byte.openParen])) .expression (some (.afterBlanks .all (.literal [Byte.closeParen])))

mutual

/-- Read a text by a grammar from a position on. -/
def run (builder : Builder σ ε α) (text : Bytes) (fuel : Nat) (g : Grammar) (start : Nat) : Run σ ε (Ending ε α) :=
  match fuel, g with
  | 0, _ => unfinished
  | _ + 1, .literal expected => literal expected text start
  | fuel + 1, .word => word text fuel start
  | fuel + 1, .number => number builder text fuel start
  | fuel + 1, .name => name builder text fuel start
  | _ + 1, .symbol b => symbol b text start
  | fuel + 1, .choice gs => alternatives builder text fuel (gs.map Grammar.description) gs start none
  | fuel + 1, .enclosed pre inner post => do
    let (opened, missed) ← optional builder text fuel pre start
    match missed with
    | some why => return ⟨opened, .error (why.under (bytes "pre"))⟩
    | none =>
      let e ← run builder text fuel inner opened
      match e.result with
      | .error why => return ⟨if e.position = opened then start else e.position, .error (why.under (bytes "of"))⟩
      | .ok item =>
        let (closed, missed) ← optional builder text fuel post e.position
        match missed with
        | some why => return ⟨closed, .error (why.under (bytes "post"))⟩
        | none => return ⟨closed, .ok item⟩
  | fuel + 1, .afterBlanks blanks inner => do
    let i ← skipWhile blanks.contains text fuel start
    let e ← run builder text fuel inner i
    match e.result with
    | .ok item => return ⟨e.position, .ok item⟩
    | .error why => return ⟨if e.position = i then start else e.position, .error (why.under inner.description)⟩
  | fuel + 1, .chain op arg => do
    let first ← run builder text fuel arg start
    match first.result with
    | .error why => return ⟨first.position, .error (why.under (bytes "first arg"))⟩
    | .ok item => turns builder text fuel op arg item first.position
  | fuel + 1, .expression => run builder text fuel (.chain (operators [.add, .sub]) .term) start
  | fuel + 1, .term => run builder text fuel (.chain (operators [.mul, .div]) .factor) start
  | fuel + 1, .factor => run builder text fuel (.afterBlanks .all (.choice [parenthesized, .number, .name])) start

/-- Read something that need not be asked for. -/
def optional (builder : Builder σ ε α) (text : Bytes) (fuel : Nat) (g : Option Grammar) (start : Nat) :
    Run σ ε (Nat × Option (Failure ε)) :=
  match fuel, g with
  | 0, _ => unfinished
  | _ + 1, none => pure (start, none)
  | fuel + 1, some g => do
    let e ← run builder text fuel g start
    match e.result with
    | .ok _ => return (e.position, none)
    | .error why => return (e.position, some why)

/-- Try alternatives in turn; `kept` is the first failure that used something. -/
def alternatives (builder : Builder σ ε α) (text : Bytes) (fuel : Nat) (names : List Bytes) (gs : List Grammar)
    (start : Nat) (kept : Option (Failure ε × Nat)) : Run σ ε (Ending ε α) :=
  match fuel, gs with
  | 0, _ => unfinished
  | _ + 1, [] =>
    match kept with
    | some (why, i) => pure ⟨i, .error why⟩
    | none => pure ⟨start, .error ⟨[], .oneOfExpected names⟩⟩
  | fuel + 1, g :: gs => do
    let e ← run builder text fuel g start
    match e.result with
    | .ok item => return ⟨e.position, .ok item⟩
    | .error why =>
      alternatives builder text fuel names gs start
        (if e.position = start then kept else kept <|> some (why.under g.description, e.position))

/-- Go on after `left`, which ended at `i`, for as long as operators move the cursor. -/
def turns (builder : Builder σ ε α) (text : Bytes) (fuel : Nat) (op arg : Grammar) (left : Item α) (i : Nat) :
    Run σ ε (Ending ε α) :=
  match fuel with
  | 0 => unfinished
  | fuel + 1 => do
    if i < text.length then
      let o ← run builder text fuel op i
      if o.position = i then return ⟨i, .ok left⟩
      else
        match o.result with
        | .error why => return ⟨o.position, .error (why.under (bytes "op"))⟩
        | .ok item =>
          match Parser.operator? builder item with
          | none => return ⟨o.position, .error ⟨[], .operatorExpected (Parser.kind builder item)⟩⟩
          | some b =>
            let r ← run builder text fuel arg o.position
            match r.result with
            | .error why => return ⟨r.position, .error (why.under (bytes "arg"))⟩
            | .ok right =>
              let joined ← join builder b left right
              match joined with
              | .error why => return ⟨r.position, .error why⟩
              | .ok item => turns builder text fuel op arg item r.position
    else return ⟨i, .ok left⟩

end

end Grammars

/-! ## Enough fuel -/

section Fuel

variable {s s' : Session σ ε}

/-- With enough fuel, work ends like this. -/
def Settles (work : Nat → Run σ ε β) (s : Session σ ε) (answer : Except ParseFault β × Session σ ε) : Prop :=
  ∃ enough, ∀ fuel ≥ enough, work fuel s = some answer

theorem settles_const {work : Run σ ε β} {answer : Except ParseFault β × Session σ ε} (h : work s = some answer) :
    Settles (fun _ => work) s answer := ⟨0, fun _ _ => h⟩

theorem settles_pure (b : β) (s : Session σ ε) : Settles (fun _ => pure b) s (.ok b, s) := settles_const rfl

theorem settles_succ {work : Nat → Run σ ε β} {answer : Except ParseFault β × Session σ ε}
    (h : Settles (fun fuel => work (fuel + 1)) s answer) : Settles work s answer := by
  obtain ⟨enough, h⟩ := h
  refine ⟨enough + 1, fun fuel hfuel => ?_⟩
  obtain ⟨fuel, rfl⟩ := Nat.exists_eq_add_of_le' (Nat.le_trans (Nat.le_add_left 1 enough) hfuel)
  exact h fuel (Nat.le_of_succ_le_succ hfuel)

/-- Works that are the same with enough fuel end in the same way. -/
theorem settles_congr {work : Nat → Run σ ε β} {work' : Nat → Run σ ε β} {answer : Except ParseFault β × Session σ ε}
    (h : ∃ enough, ∀ fuel ≥ enough, work fuel s = work' fuel s') : Settles work s answer ↔ Settles work' s' answer := by
  obtain ⟨n, h⟩ := h
  constructor
  · rintro ⟨m, hwork⟩
    refine ⟨max n m, fun fuel hfuel => ?_⟩
    rw [← h fuel (le_of_max_le_left hfuel), hwork fuel (le_of_max_le_right hfuel)]
  · rintro ⟨m, hwork⟩
    refine ⟨max n m, fun fuel hfuel => ?_⟩
    rw [h fuel (le_of_max_le_left hfuel), hwork fuel (le_of_max_le_right hfuel)]

theorem bind_apply (work : Run σ ε β) (next : β → Run σ ε γ) (s : Session σ ε) :
    (work >>= next) s = (work s).bind fun p => ExceptT.bindCont next p.1 p.2 := rfl

/-- What follows on work that ends is done next. -/
theorem settles_bind {work : Nat → Run σ ε β} {b : β} (h : Settles work s (.ok b, s')) (next : Nat → β → Run σ ε γ)
    {answer : Except ParseFault γ × Session σ ε} :
    Settles (fun fuel => work fuel >>= next fuel) s answer ↔ Settles (fun fuel => next fuel b) s' answer := by
  obtain ⟨enough, h⟩ := h
  refine settles_congr ⟨enough, fun fuel hfuel => ?_⟩
  rw [bind_apply, h fuel hfuel]
  rfl

theorem settles_fault {work : Nat → Run σ ε β} {f : ParseFault} (h : Settles work s (.error f, s'))
    (next : Nat → β → Run σ ε γ) : Settles (fun fuel => work fuel >>= next fuel) s (.error f, s') := by
  obtain ⟨enough, h⟩ := h
  refine ⟨enough, fun fuel hfuel => ?_⟩
  have hbind := bind_apply (work fuel) (next fuel) s
  rw [h fuel hfuel] at hbind
  exact hbind

end Fuel

/-! ## Accesses and loops -/

section Loops

variable {text : Bytes} {i j : Nat}

theorem settles_byteAt {b : UInt8} {rest : Bytes} (h : text.drop i = b :: rest) (s : Session σ ε) :
    Settles (fun _ => byteAt text i) s (.ok b, s) := by
  have hb : text[i]? = some b := by
    rw [← List.head?_drop, h]
    rfl
  rw [byteAt, hb]
  exact settles_pure b s

theorem settles_slice (hij : i ≤ j) (hj : j ≤ text.length) (s : Session σ ε) :
    Settles (fun _ => slice text i j) s (.ok ((text.drop i).take (j - i)), s) := by
  rw [slice, if_pos ⟨hij, hj⟩, List.drop_take]
  exact settles_pure _ s

theorem settles_slice_rest (hi : i ≤ text.length) (s : Session σ ε) :
    Settles (fun _ => slice text i text.length) s (.ok (text.drop i), s) := by
  have h := settles_slice hi (Nat.le_refl _) s
  rwa [← List.length_drop, List.take_length] at h

theorem lt_length_of_drop {b : UInt8} {rest : Bytes} (h : text.drop i = b :: rest) :
    i < text.length ∧ text.drop (i + 1) = rest := by
  constructor
  · refine Nat.lt_of_not_le fun hle => ?_
    rw [List.drop_eq_nil_of_le hle] at h
    cases h
  · rw [← List.drop_drop, h]
    rfl

theorem add_le_length {n : Nat} (hi : i ≤ text.length) (h : n ≤ (text.drop i).length) : i + n ≤ text.length := by
  rw [List.length_drop] at h
  omega

/-- Bytes are skipped one by one, by induction on how many are left. -/
theorem settles_skipWhile (p : UInt8 → Bool) (text : Bytes) (i : Nat) (s : Session σ ε) :
    Settles (fun fuel => skipWhile p text fuel i) s (.ok (i + ((text.drop i).takeWhile p).length), s) := by
  generalize hrest : text.drop i = rest
  induction rest generalizing i with
  | nil =>
    have hi : ¬i < text.length := Nat.not_lt.2 (List.drop_eq_nil_iff.1 hrest)
    refine settles_succ ?_
    simp only [skipWhile, if_neg hi]
    exact settles_pure i s
  | cons b rest ih =>
    obtain ⟨hi, hnext⟩ := lt_length_of_drop hrest
    refine settles_succ ?_
    simp only [skipWhile, if_pos hi]
    rw [settles_bind (settles_byteAt hrest s)]
    by_cases hb : p b
    · simp only [if_pos hb]
      rw [List.takeWhile_cons_of_pos hb, List.length_cons, Nat.add_comm (rest.takeWhile p).length, ← Nat.add_assoc]
      exact ih (i + 1) hnext
    · simp only [if_neg hb]
      rw [List.takeWhile_cons_of_neg hb]
      exact settles_pure i s

theorem width_of_first? {c : Char} {width : Nat} (h : Utf8.first? text = some (c, width)) :
    1 ≤ width ∧ width ≤ text.length := by
  obtain ⟨rest, rfl, rfl⟩ := Utf8.eq_encode_of_first? h
  rw [List.length_append, String.length_utf8EncodeChar]
  exact ⟨c.utf8Size_pos, Nat.le_add_right _ _⟩

/-- A word goes on behind a character of more than one byte, unless it is the replacement character. -/
theorem settles_wordEnd_wide {b : UInt8} {rest : Bytes} {c : Char} {width : Nat} {s : Session σ ε}
    {answer : Except ParseFault (Nat × Bool) × Session σ ε} (hrest : text.drop i = b :: rest)
    (hb : ¬(Byte.isLetter b || Byte.isDigit b)) (hascii : ¬b < 128) (hfirst : Utf8.first? (b :: rest) = some (c, width))
    (h : Settles (fun fuel => if c.toNat = 0xFFFD then pure (i, false) else wordEnd text fuel (i + width)) s answer) :
    Settles (fun fuel => wordEnd text fuel i) s answer := by
  obtain ⟨hlt, -⟩ := lt_length_of_drop hrest
  refine settles_succ ?_
  simp only [wordEnd, if_pos hlt]
  rw [settles_bind (settles_byteAt hrest s)]
  simp only [if_neg hb, if_neg hascii]
  rw [settles_bind (settles_slice_rest (Nat.le_of_lt hlt) s), hrest]
  simp only [hfirst]
  exact h

/-- A word ends where its tail does, by induction on the tail. -/
theorem settles_wordEnd (i : Nat) (hi : i ≤ text.length) (s : Session σ ε) :
    Settles (fun fuel => wordEnd text fuel i) s
        (.ok (i + (Parser.wordTail (text.drop i)).1, (Parser.wordTail (text.drop i)).2), s) ∧
      i + (Parser.wordTail (text.drop i)).1 ≤ text.length := by
  generalize hrest : text.drop i = rest
  fun_induction Parser.wordTail rest generalizing i with
  | case1 =>
    have hi' : ¬i < text.length := Nat.not_lt.2 (List.drop_eq_nil_iff.1 hrest)
    refine ⟨settles_succ ?_, hi⟩
    simp only [wordEnd, if_neg hi']
    exact settles_pure _ s
  | case2 b rest hb n ok htail ih =>
    obtain ⟨hlt, hnext⟩ := lt_length_of_drop hrest
    obtain ⟨hrun, hle⟩ := ih (i + 1) hlt hnext
    rw [htail, Nat.add_assoc, Nat.add_comm 1] at hrun hle
    refine ⟨settles_succ ?_, hle⟩
    simp only [wordEnd, if_pos hlt]
    rw [settles_bind (settles_byteAt hrest s)]
    simp only [if_pos hb]
    exact hrun
  | case3 b rest hb hascii =>
    obtain ⟨hlt, -⟩ := lt_length_of_drop hrest
    refine ⟨settles_succ ?_, hi⟩
    simp only [wordEnd, if_pos hlt]
    rw [settles_bind (settles_byteAt hrest s)]
    simp only [if_neg hb, if_pos hascii]
    exact settles_pure _ s
  | case4 b rest hb hascii hfirst =>
    obtain ⟨hlt, -⟩ := lt_length_of_drop hrest
    refine ⟨settles_succ ?_, hi⟩
    simp only [wordEnd, if_pos hlt]
    rw [settles_bind (settles_byteAt hrest s)]
    simp only [if_neg hb, if_neg hascii]
    rw [settles_bind (settles_slice_rest hi s), hrest]
    simp only [hfirst]
    exact settles_pure _ s
  | case5 b rest hb hascii c width hfirst hbad =>
    refine ⟨settles_wordEnd_wide hrest hb hascii hfirst ?_, hi⟩
    simp only [if_pos hbad]
    exact settles_pure _ s
  | case6 b rest hb hascii c width hfirst hgood n ok htail ih =>
    obtain ⟨-, hnext⟩ := lt_length_of_drop hrest
    obtain ⟨hpos, hwidth⟩ := width_of_first? hfirst
    have hle : i + width ≤ text.length := add_le_length hi (hrest ▸ hwidth)
    have hdrop : text.drop (i + width) = rest.drop (width - 1) := by
      rw [← hnext, List.drop_drop]
      congr 1
      omega
    obtain ⟨hrun, hle'⟩ := ih (i + width) hle hdrop
    rw [htail, Nat.add_assoc, Nat.add_comm width] at hrun hle'
    refine ⟨settles_wordEnd_wide hrest hb hascii hfirst ?_, hle'⟩
    simp only [if_neg hgood]
    exact hrun

/-! ### Numbers -/

theorem settles_skipWhile_append {p : UInt8 → Bool} {w tail : Bytes} (h : text.drop i = w ++ tail)
    (hw : ∀ b ∈ w, p b = true) (htail : ∀ b ∈ tail.head?, p b = false) (s : Session σ ε) :
    Settles (fun fuel => skipWhile p text fuel i) s (.ok (i + w.length), s) := by
  have hskip := settles_skipWhile p text i s
  rwa [h, Lexeme.takeWhile_append hw htail] at hskip

theorem drop_of_append {w tail : Bytes} (h : text.drop i = w ++ tail) : text.drop (i + w.length) = tail := by
  rw [← List.drop_drop, h, List.drop_left]

theorem settles_fractionEnd {f tail : Bytes} (h : text.drop i = Byte.point :: (f ++ tail)) (hf : Lexeme.Digits f)
    (htail : ∀ b ∈ tail.head?, Byte.isDigit b = false) (s : Session σ ε) :
    Settles (fun fuel => fractionEnd text fuel i) s (.ok (i + 1 + f.length, f.length), s) := by
  obtain ⟨hlt, hnext⟩ := lt_length_of_drop h
  have hcount : i + 1 + f.length - i - 1 = f.length := by omega
  simp only [fractionEnd, if_pos hlt]
  rw [settles_bind (settles_byteAt h s)]
  simp only [if_true]
  rw [settles_bind (settles_skipWhile_append hnext hf htail s), hcount]
  exact settles_pure _ s

theorem settles_fractionEnd_none (h : (text.drop i).head? ≠ some Byte.point) (s : Session σ ε) :
    Settles (fun fuel => fractionEnd text fuel i) s (.ok (i, 0), s) := by
  cases hrest : text.drop i with
  | nil =>
    simp only [fractionEnd, if_neg (Nat.not_lt.2 (List.drop_eq_nil_iff.1 hrest))]
    exact settles_pure _ s
  | cons b rest =>
    rw [hrest] at h
    obtain ⟨hlt, -⟩ := lt_length_of_drop hrest
    have hb : b ≠ Byte.point := fun hb => h (congrArg some hb)
    simp only [fractionEnd, if_pos hlt]
    rw [settles_bind (settles_byteAt hrest s)]
    simp only [if_neg hb]
    exact settles_pure _ s

theorem settles_signEnd (i : Nat) (s : Session σ ε) :
    Settles (fun _ => signEnd text i) s (.ok (i + (Numeral.sign (text.drop i)).2), s) := by
  cases hrest : text.drop i with
  | nil =>
    rw [signEnd, if_neg (Nat.not_lt.2 (List.drop_eq_nil_iff.1 hrest))]
    exact settles_pure i s
  | cons b rest =>
    obtain ⟨hlt, -⟩ := lt_length_of_drop hrest
    rw [signEnd, if_pos hlt, settles_bind (settles_byteAt hrest s)]
    by_cases hb : b = Byte.plus ∨ b = Byte.minus
    · rw [if_pos hb]
      rcases hb with rfl | rfl <;> exact settles_pure _ s
    · rw [if_neg hb, Lexeme.sign_cons (fun h => hb (.inl h)) (fun h => hb (.inr h))]
      exact settles_pure i s

theorem settles_exponentEnd (text : Bytes) (i : Nat) (s : Session σ ε) :
    Settles (fun fuel => exponentEnd text fuel i) s (.ok (i + Parser.exponentLength (text.drop i)), s) := by
  cases hrest : text.drop i with
  | nil =>
    simp only [exponentEnd, if_neg (Nat.not_lt.2 (List.drop_eq_nil_iff.1 hrest))]
    exact settles_pure i s
  | cons mark rest =>
    obtain ⟨hlt, hnext⟩ := lt_length_of_drop hrest
    simp only [exponentEnd, if_pos hlt]
    rw [settles_bind (settles_byteAt hrest s)]
    by_cases hmark : Byte.toLower mark = Byte.letterE
    · have hdigits : text.drop (i + 1 + (Numeral.sign rest).2) = rest.drop (Numeral.sign rest).2 := by
        rw [← hnext, List.drop_drop]
      simp only [Parser.exponentLength, if_pos hmark]
      rw [settles_bind (settles_signEnd (i + 1) s), hnext, settles_bind (settles_skipWhile _ _ _ s), hdigits]
      by_cases hnone : (rest.drop (Numeral.sign rest).2).takeWhile Byte.isDigit = []
      · rw [if_pos hnone, hnone, List.length_nil, Nat.add_zero, if_pos rfl]
        exact settles_pure i s
      · have hpos := List.length_pos_iff.2 hnone
        rw [if_neg hnone, if_neg (by omega), ← Nat.add_assoc, ← Nat.add_assoc]
        exact settles_pure _ s
    · simp only [Parser.exponentLength, if_neg hmark]
      exact settles_pure i s

end Loops

/-! ## What a walk comes to -/

section Reports

/-- What an outcome that counts bytes from `start` says of positions. -/
def report (start : Nat) : Outcome ε α → Except ParseFault (Ending ε α)
  | .done item used => .ok ⟨start + used, .ok item⟩
  | .failed why used => .ok ⟨start + used, .error why⟩
  | .fault f => .error f

/-- A fault of a byte that is no operator, or of one next to something that the builder did not make. -/
def OfOperator (f : ParseFault) : Prop := f = .operand ∨ ∃ b, Operator.ofSymbol? b = none ∧ f = .operator b

/-- The outcome uses at most `n` bytes, or is a fault of an operator. -/
def Proper (n : Nat) : Outcome ε α → Prop
  | .done _ used | .failed _ used => used ≤ n
  | .fault f => OfOperator f

/-- A walk that begins at `start` ends with what a parser answers to the rest of the text. -/
def Ends (text : Bytes) (start : Nat) (walk : Nat → Run σ ε (Ending ε α)) (s : Session σ ε)
    (answer : Outcome ε α × Session σ ε) : Prop :=
  Settles walk s (report start answer.1, answer.2) ∧ Proper (text.length - start) answer.1

/-- From `low` on, walks by a grammar end with what a parser answers. -/
def Follows (builder : Builder σ ε α) (g : Grammar) (parser : Parser σ ε α) (text : Bytes) (low : Nat) : Prop :=
  ∀ start, low ≤ start → start ≤ text.length → ∀ s,
    Ends text start (fun fuel => run builder text fuel g start) s (parser (text.drop start) s)

variable {builder : Builder σ ε α} {g : Grammar} {parser : Parser σ ε α} {text : Bytes} {low start : Nat}

theorem Follows.mono {low' : Nat} (h : Follows builder g parser text low) (hle : low ≤ low') :
    Follows builder g parser text low' := fun start hstart => h start (Nat.le_trans hle hstart)

/-! ### Steps of a walk -/

section Steps

variable {s s' : Session σ ε} {answer : Outcome ε α × Session σ ε} {item : Item α} {why : Failure ε} {used : Nat}

theorem ends_succ {walk : Nat → Run σ ε (Ending ε α)} (h : Ends text start (fun fuel => walk (fuel + 1)) s answer) :
    Ends text start walk s answer := ⟨settles_succ h.1, h.2⟩

theorem ends_bind {work : Nat → Run σ ε β} {b : β} (h : Settles work s (.ok b, s'))
    (next : Nat → β → Run σ ε (Ending ε α)) :
    Ends text start (fun fuel => work fuel >>= next fuel) s answer ↔
      Ends text start (fun fuel => next fuel b) s' answer := by
  rw [Ends, settles_bind h, Ends]

theorem ends_done {position : Nat} (h : position = start + used) (hle : position ≤ text.length) :
    Ends text start (fun _ => pure ⟨position, .ok item⟩) s (.done item used, s) := by
  subst h
  exact ⟨settles_pure _ s, Nat.le_sub_of_add_le (by omega)⟩

theorem ends_failed {position : Nat} (h : position = start + used) (hle : position ≤ text.length) :
    Ends (α := α) text start (fun _ => pure ⟨position, .error why⟩) s (.failed why used, s) := by
  subst h
  exact ⟨settles_pure _ s, Nat.le_sub_of_add_le (by omega)⟩

theorem ends_fault {work : Nat → Run σ ε β} {f : ParseFault} (h : Settles work s (.error f, s')) (hf : OfOperator f)
    (next : Nat → β → Run σ ε (Ending ε α)) : Ends text start (fun fuel => work fuel >>= next fuel) s (.fault f, s') :=
  ⟨settles_fault h next, hf⟩

theorem ends_failed_here : Ends (α := α) text start (fun _ => pure ⟨start, .error why⟩) s (.failed why 0, s) :=
  ⟨settles_pure _ s, Nat.zero_le _⟩

/-- A failure that moved the cursor no further than what was skipped counts as one at the start. -/
theorem ends_failed_back {skipped : Nat} (hle : start + skipped + used ≤ text.length) :
    Ends (α := α) text start
      (fun _ => pure ⟨if start + skipped + used = start + skipped then start else start + skipped + used, .error why⟩) s
      (.failed why (if used = 0 then 0 else skipped + used), s) := by
  by_cases hzero : used = 0
  · rw [if_pos hzero, if_pos (by omega)]
    exact ends_failed_here
  · rw [if_neg hzero, if_neg (by omega)]
    exact ends_failed (Nat.add_assoc _ _ _) hle

end Steps

/-! ### Literals and words -/

theorem settles_literal (expected : Bytes) (hstart : start ≤ text.length) (s : Session σ ε) :
    Settles (fun _ => literal (α := α) expected text start) s
      (.ok (if expected.isPrefixOf (text.drop start) then ⟨start + expected.length, .ok (.literal expected)⟩
        else ⟨start, .error ⟨[], .literalExpected expected⟩⟩), s) := by
  rw [literal, settles_bind (settles_slice_rest hstart s)]
  split
  · rename_i hprefix
    rw [List.isPrefixOf_iff_prefix] at hprefix
    have hle : start + expected.length ≤ text.length := add_le_length hstart hprefix.length_le
    rw [settles_bind (settles_slice (Nat.le_add_right _ _) hle s), Nat.add_sub_cancel_left,
      ← List.prefix_iff_eq_take.1 hprefix]
    exact settles_pure _ s
  · exact settles_pure _ s

theorem follows_literal (expected : Bytes) : Follows builder (.literal expected) (Parser.literal expected) text low := by
  intro start _ hstart s
  have hwalk := settles_literal (α := α) expected hstart s
  refine ends_succ ?_
  simp only [run, Parser.literal]
  by_cases hprefix : expected.isPrefixOf (text.drop start)
  · rw [if_pos hprefix] at hwalk ⊢
    refine ⟨hwalk, ?_⟩
    rw [← List.length_drop]
    exact (List.isPrefixOf_iff_prefix.1 hprefix).length_le
  · rw [if_neg hprefix] at hwalk ⊢
    exact ⟨hwalk, Nat.zero_le _⟩

theorem follows_symbol (b : UInt8) : Follows builder (.symbol b) (Parser.symbol b) text low := by
  intro start _ hstart s
  refine ends_succ ?_
  simp only [run, symbol]
  rw [ends_bind (settles_literal [b] hstart s)]
  cases hrest : text.drop start with
  | nil => exact ends_failed_here
  | cons c rest =>
    obtain ⟨hlt, -⟩ := lt_length_of_drop hrest
    by_cases hb : b = c
    · subst hb
      simp only [Parser.symbol, if_true, List.isPrefixOf, beq_self_eq_true, Bool.and_true]
      exact ends_done rfl hlt
    · have hprefix : ([b] : Bytes).isPrefixOf (c :: rest) = false := by simp [List.isPrefixOf, hb]
      simp only [Parser.symbol, if_neg hb, hprefix, Bool.false_eq_true, if_false]
      exact ends_failed_here

theorem word_ends (hstart : start ≤ text.length) (s : Session σ ε) :
    Ends (α := α) text start (fun fuel => word text fuel start) s (Parser.word (text.drop start) s) := by
  cases hrest : text.drop start with
  | nil =>
    have hend : start = text.length := Nat.le_antisymm hstart (List.drop_eq_nil_iff.1 hrest)
    simp only [word, if_pos hend]
    exact ends_failed_here
  | cons b rest =>
    obtain ⟨hlt, hnext⟩ := lt_length_of_drop hrest
    obtain ⟨hend, hle⟩ := settles_wordEnd (start + 1) hlt s
    rw [hnext, Nat.add_assoc, Nat.add_comm 1] at hend hle
    simp only [word, if_neg (Nat.ne_of_lt hlt)]
    rw [ends_bind (settles_byteAt hrest s), Parser.word]
    by_cases hb : Byte.isLetter b
    · simp only [if_pos hb]
      rw [ends_bind hend]
      generalize Parser.wordTail rest = tail at hle
      obtain ⟨n, ok⟩ := tail
      cases ok with
      | true =>
        simp only [if_true]
        rw [ends_bind (settles_slice (Nat.le_add_right _ _) hle s), hrest, Nat.add_sub_cancel_left]
        exact ends_done rfl hle
      | false => exact ends_failed rfl hle
    · simp only [if_neg hb]
      exact ends_failed_here

theorem follows_word : Follows builder .word Parser.word text low := by
  intro start _ hstart s
  refine ends_succ ?_
  simp only [run]
  exact word_ends hstart s

/-! ### Texts for the builder -/

/-- The builder's answer is the result. -/
theorem offer_cases (label : Bytes) (work : Build σ ε α) (used : Nat) (s : Session σ ε) :
    (∃ item s', offer label work s = some (.ok (.ok item), s') ∧ Parser.offer label work used s = (.done item used, s')) ∨
      ∃ why s', offer label work s = some (.ok (.error why), s') ∧
        Parser.offer label work used s = (.failed why used, s') := by
  unfold offer Parser.offer
  rcases s.call work with ⟨e | a, s'⟩
  · exact .inr ⟨_, s', rfl, rfl⟩
  · exact .inl ⟨_, s', rfl, rfl⟩

theorem offer_ends (label : Bytes) (work : Build σ ε α) {used : Nat} (hused : start + used ≤ text.length)
    (s : Session σ ε) :
    Ends text start (fun _ => do let result ← offer label work; return ⟨start + used, result⟩) s
      (Parser.offer label work used s) := by
  rcases offer_cases label work used s with ⟨item, s', hwalk, hparser⟩ | ⟨why, s', hwalk, hparser⟩
  · rw [ends_bind (settles_const hwalk), hparser]
    exact ends_done rfl hused
  · rw [ends_bind (settles_const hwalk), hparser]
    exact ends_failed rfl hused

/-- Words call no builder. -/
theorem word_cases (text : Bytes) (s : Session σ ε) :
    (∃ id used, Parser.word (α := α) text s = (.done (.word id) used, s)) ∨
      ∃ why used, Parser.word (α := α) text s = (.failed why used, s) := by
  unfold Parser.word
  split
  · exact .inr ⟨_, _, rfl⟩
  · split
    · split
      · exact .inl ⟨_, _, rfl⟩
      · exact .inr ⟨_, _, rfl⟩
    · exact .inr ⟨_, _, rfl⟩

theorem follows_name : Follows builder .name (Parser.name builder) text low := by
  intro start _ hstart s
  obtain ⟨hwalk, hproper⟩ := word_ends (α := α) hstart s
  refine ends_succ ?_
  simp only [run, name]
  rcases word_cases (α := α) (text.drop start) s with ⟨id, used, hword⟩ | ⟨why, used, hword⟩
  · rw [hword] at hwalk hproper
    simp only [Parser.name, hword]
    rw [ends_bind hwalk]
    refine offer_ends (bytes "name") (builder.name id) ?_ s
    have hused : used ≤ text.length - start := hproper
    omega
  · rw [hword] at hwalk hproper
    simp only [Parser.name, hword]
    rw [ends_bind hwalk]
    exact ⟨settles_pure _ s, hproper⟩

/-- The mantissa of a number and its exponent make up its length. -/
theorem mantissa_ends (text : Bytes) (start : Nat) (s : Session σ ε) :
    ∃ whole mantissa digits, Settles (fun fuel => skipWhile Byte.isDigit text fuel start) s (.ok whole, s) ∧
      Settles (fun fuel => fractionEnd text fuel whole) s (.ok (mantissa, digits), s) ∧
      if whole - start + digits = 0 then Parser.numberLength (text.drop start) = 0
      else Parser.numberLength (text.drop start) ≠ 0 ∧
        mantissa + Parser.exponentLength (text.drop mantissa) = start + Parser.numberLength (text.drop start) := by
  obtain ⟨w, tail, hrest, hw, htail⟩ := Lexeme.exists_takeWhile Byte.isDigit (text.drop start)
  have hwhole := settles_skipWhile_append hrest hw htail s
  have hdrop := drop_of_append hrest
  by_cases hpoint : tail.head? = some Byte.point
  · obtain ⟨rest, rfl⟩ := List.head?_eq_some_iff.1 hpoint
    obtain ⟨f, tail, rfl, hf, htail'⟩ := Lexeme.exists_takeWhile Byte.isDigit rest
    refine ⟨_, _, _, hwhole, settles_fractionEnd hdrop hf htail' s, ?_⟩
    have hdrop' : text.drop (start + w.length + 1 + f.length) = tail := drop_of_append (lt_length_of_drop hdrop).2
    rw [hrest, Lexeme.numberLength_point hw hf htail', hdrop', Nat.add_sub_cancel_left]
    by_cases hnone : w = [] ∧ f = []
    · obtain ⟨rfl, rfl⟩ := hnone
      rfl
    · have hdigits : w.length + f.length ≠ 0 := by
        rwa [Ne, Nat.add_eq_zero_iff, List.length_eq_zero_iff, List.length_eq_zero_iff]
      rw [if_neg hdigits, if_neg hnone]
      omega
  · refine ⟨_, _, _, hwhole, settles_fractionEnd_none (by rwa [hdrop]) s, ?_⟩
    have htail' : ∀ b ∈ tail.head?, Byte.isDigit b = false ∧ b ≠ Byte.point :=
      fun b hb => ⟨htail b hb, fun heq => hpoint (heq ▸ hb)⟩
    rw [hrest, Lexeme.numberLength_whole hw htail', hdrop, Nat.add_sub_cancel_left, Nat.add_zero]
    by_cases hnone : w = []
    · subst hnone
      rfl
    · have hdigits : w.length ≠ 0 := by rwa [Ne, List.length_eq_zero_iff]
      rw [if_neg hdigits, if_neg hnone]
      omega

theorem numberLength_le (text : Bytes) : Parser.numberLength text ≤ text.length := by
  by_cases h : Parser.numberLength text = 0
  · rw [h]
    exact Nat.zero_le _
  · obtain ⟨w, rest, htext, hlength, -⟩ := Lexeme.exists_number h
    rw [hlength, htext, List.length_append]
    exact Nat.le_add_right _ _

theorem follows_number : Follows builder .number (Parser.number builder) text low := by
  intro start _ hstart s
  obtain ⟨whole, mantissa, digits, hwhole, hmantissa, hlength⟩ := mantissa_ends text start s
  refine ends_succ ?_
  simp only [run, number]
  rw [ends_bind hwhole, ends_bind hmantissa]
  by_cases hdigits : whole - start + digits = 0
  · rw [if_pos hdigits] at hlength
    simp only [if_pos hdigits, Parser.number, hlength]
    exact ends_failed_here
  · rw [if_neg hdigits] at hlength
    obtain ⟨hne, hend⟩ := hlength
    have hle := add_le_length hstart (numberLength_le (text.drop start))
    have hexponent := settles_exponentEnd text mantissa s
    rw [hend] at hexponent
    obtain ⟨n, hn⟩ := Nat.exists_eq_succ_of_ne_zero hne
    rw [hn] at hexponent hle
    simp only [if_neg hdigits, Parser.number, hn]
    rw [ends_bind hexponent, ends_bind (settles_slice (Nat.le_add_right _ _) hle s), Nat.add_sub_cancel_left]
    split
    · exact offer_ends (bytes "number") _ hle s
    · exact ends_failed rfl hle

end Reports

end Cursor

end ComplexFormula
