import ComplexFormula.Proofs.Listing.ReadBack
import ComplexFormula.Proofs.Numeral.Alphabet
import Mathlib

/-!
# The words of expressions

A text can be looked at as lines (`lines`) and as names and numbers (`words`). Operators, blanks and parentheses stand
between words, so the words of an operation are those of its operands (`words_source_operation`), and the temporaries that
an expression mentions are those among its words (`temporaryName_mem_words_source`).

Constants cannot disturb this, whatever their texts are: what is printed for one is a call into package `math` or has the
bytes of numerals only (`constantForm_cases`).
-/

namespace ComplexFormula

namespace Source

variable {text w : Bytes} {b c : UInt8} {e l r : Expr}

/-! ## Words and lines -/

section Texts

/-- A letter, a digit or an underscore. -/
def isNameByte (b : UInt8) : Bool := Byte.isLetter b || Byte.isDigit b

/-- The names and numbers in a text: its longest runs of letters and digits. -/
def words (text : Bytes) : List Bytes := (text.splitOnP fun b => !isNameByte b).filter (· ≠ [])

def lines (text : Bytes) : List Bytes := text.splitOn Byte.lineFeed

/-- The variable that a line declares. -/
def declared? (line : Bytes) : Option Bytes :=
  (words line).head?.filter fun name => ([Byte.tab] ++ name ++ bytes " := ").isPrefixOf line

/-- The words that a line uses: all but the name that it declares. -/
def usedWords (line : Bytes) : List Bytes := if (declared? line).isSome then (words line).tail else words line

theorem words_append_cons (text rest : Bytes) (hb : isNameByte b = false) :
    words (text ++ b :: rest) = words text ++ words rest := by
  rw [words, List.splitOnP_append_cons text rest (by rw [hb]; rfl), List.filter_append]
  rfl

theorem words_nil : words [] = [] := rfl

theorem words_cons (rest : Bytes) (hb : isNameByte b = false) : words (b :: rest) = words rest :=
  words_append_cons [] rest hb

theorem words_concat (text : Bytes) (hb : isNameByte b = false) : words (text ++ [b]) = words text := by
  rw [words_append_cons text [] hb, words_nil, List.append_nil]

theorem words_word (h : ∀ c ∈ w, isNameByte c = true) (hw : w ≠ []) : words w = [w] := by
  rw [words, List.splitOnP_eq_singleton fun c hc => by rw [h c hc]; rfl, List.filter_cons_of_pos (by simpa using hw)]
  rfl

theorem mem_of_mem_words (hw : w ∈ words text) (hc : c ∈ w) : c ∈ text := by
  rw [words, List.mem_filter] at hw
  replace hw := hw.1
  induction text generalizing w with
  | nil =>
    rw [List.splitOnP_nil, List.mem_singleton] at hw
    rwa [hw] at hc
  | cons b text ih =>
    rw [List.splitOnP_cons_eq_if_modifyHead] at hw
    split at hw
    · rcases List.mem_cons.1 hw with rfl | hw
      · exact absurd hc List.not_mem_nil
      · exact List.mem_cons_of_mem _ (ih hc hw)
    · obtain ⟨u, us, hsplit⟩ := List.exists_cons_of_ne_nil (List.splitOnP_ne_nil (fun b => !isNameByte b) text)
      rw [hsplit, List.modifyHead_cons, List.mem_cons] at hw
      rcases hw with rfl | hw
      · rcases List.mem_cons.1 hc with rfl | hc
        · exact List.mem_cons_self
        · exact List.mem_cons_of_mem _ (ih hc (hsplit ▸ List.mem_cons_self))
      · exact List.mem_cons_of_mem _ (ih hc (hsplit ▸ List.mem_cons_of_mem _ hw))

end Texts

/-! ## Expressions -/

section Expressions

/-- The expressions of emitted programs. Their constants may have any text. -/
inductive Emitted : Expr → Prop
  | argument {i : Nat} {name : Bytes} (h : parameters[i]? = some name) : Emitted (.arg i name)
  | constant (text : Bytes) : Emitted (.const text)
  | temporary (n : Nat) : Emitted (.temp n)
  | operation (op : Operator) {l r : Expr} (hl : Emitted l) (hr : Emitted r) : Emitted (.binary op.symbol l r)

/-- The bytes that expressions are printed with. -/
def isExpressionByte (b : UInt8) : Bool :=
  isNameByte b || [Byte.space, Byte.openParen, Byte.closeParen, Byte.star, Byte.plus, Byte.comma, Byte.minus, Byte.point,
    Byte.slash].contains b

theorem isNameByte_temporaryName (n : Nat) : ∀ c ∈ temporaryName n, isNameByte c = true := by
  rw [temporaryName_natCast]
  intro c hc
  rcases List.mem_cons.1 hc with rfl | hc
  · rfl
  · rw [isNameByte, digits_decimal n c hc, Bool.or_true]

theorem temporaryName_injective {m n : Nat} (h : temporaryName m = temporaryName n) : m = n := by
  have hread := temporary?_temporaryName m
  rw [h, temporary?_temporaryName] at hread
  exact (Option.some.inj hread).symm

/-- The names of the first temporaries. -/
def temporaryNames (count : Nat) : List Bytes := (List.range count).map fun k : Nat => temporaryName k

theorem mem_temporaryNames {k count : Nat} (h : k < count) : temporaryName k ∈ temporaryNames count :=
  List.mem_map_of_mem (List.mem_range.2 h)

theorem temporaryNames_succ (count : Nat) : temporaryNames (count + 1) = temporaryNames count ++ [temporaryName count] := by
  rw [temporaryNames, List.range_succ, List.map_append]
  rfl

theorem words_temporaryName (n : Nat) : words (temporaryName n) = [temporaryName n] :=
  words_word (isNameByte_temporaryName n) (List.cons_ne_nil _ _)

theorem mem_source_binary {nested divisor : Bool} (hc : c ∈ (Expr.binary b l r).source nested divisor) :
    c ∈ l.source true false ∨ c ∈ r.source true (b = Operator.div.symbol) ∨
      c ∈ [Byte.space, Byte.openParen, Byte.closeParen, b] := by
  cases nested <;> simp [Expr.source] at hc ⊢ <;> tauto

theorem words_source_operation (op : Operator) (l r : Expr) (nested divisor : Bool) :
    words ((Expr.binary op.symbol l r).source nested divisor) =
      words (l.source true false) ++ words (r.source true (op.symbol = Operator.div.symbol)) := by
  have hop : isNameByte op.symbol = false := by cases op <;> rfl
  have hbody : words (l.source true false ++ [Byte.space, op.symbol, Byte.space] ++
      r.source true (op.symbol = Operator.div.symbol)) =
      words (l.source true false) ++ words (r.source true (op.symbol = Operator.div.symbol)) := by
    rw [List.append_assoc, List.cons_append, words_append_cons _ _ rfl, List.cons_append, words_cons _ hop,
      List.cons_append, words_cons _ rfl, List.nil_append]
  cases nested with
  | false => exact hbody
  | true =>
    show words ([Byte.openParen] ++ _ ++ [Byte.closeParen]) = _
    rw [words_concat _ rfl, List.singleton_append, words_cons _ rfl, hbody]

/-! ### Constants -/

/-- A literal has bytes of numerals only. -/
theorem isNumeralByte_of_literal {divisor : Bool} (h : ConstantForm.of text divisor = .literal w) :
    ∀ c ∈ w, Numeral.isNumeralByte c := by
  unfold ConstantForm.of at h
  split at h
  · cases h
  · rename_i negative m hread
    split_ifs at h with hinfinite hzero <;> cases h
    · exact fun c hc => List.mem_singleton.1 hc ▸ rfl
    · exact Numeral.isNumeralByte_of_read (Numeral.read_write _) hinfinite hzero
    · exact Numeral.isNumeralByte_of_read hread hinfinite hzero

/-- The calls into package `math`. -/
def mathCalls : List Bytes :=
  [bytes "math.NaN()", bytes "math.Inf(1)", bytes "math.Inf(-1)", bytes "math.Copysign(0, 1)", bytes "math.Copysign(0, -1)"]

/-- A constant is written as a call or with the bytes of numerals. -/
theorem constantForm_cases (text : Bytes) (divisor : Bool) :
    ((ConstantForm.of text divisor).isCall = true ∧ (ConstantForm.of text divisor).text ∈ mathCalls) ∨
      (ConstantForm.of text divisor).isCall = false ∧
        ∀ c ∈ (ConstantForm.of text divisor).text, Numeral.isNumeralByte c := by
  cases hform : ConstantForm.of text divisor with
  | literal w => exact .inr ⟨rfl, isNumeralByte_of_literal hform⟩
  | nan => exact .inl ⟨rfl, by decide +kernel⟩
  | infinity negative => exact .inl ⟨rfl, by cases negative <;> decide +kernel⟩
  | signedZero negative => exact .inl ⟨rfl, by cases negative <;> decide +kernel⟩

/-- Only letters become small letters. -/
theorem isLetter_of_toLower (hle : 97 ≤ Byte.toLower c) (hle' : Byte.toLower c ≤ 122) : Byte.isLetter c := by
  unfold Byte.toLower at hle hle'
  split at hle
  · rename_i hcapital
    rw [Byte.isLetter, hcapital, Bool.or_true, Bool.true_or]
  · rename_i hcapital
    rw [if_neg hcapital] at hle'
    rw [Byte.isLetter, decide_eq_true hle, decide_eq_true hle']
    rfl

theorem isNameByte_of_hexValue (h : (Numeral.hexValue? c).isSome) : isNameByte c := by
  simp only [Numeral.hexValue?] at h
  split at h
  · rename_i hdigit
    rw [isNameByte, hdigit, Bool.or_true]
  · split at h
    · rename_i hletter
      rw [Bool.and_eq_true, decide_eq_true_eq, decide_eq_true_eq] at hletter
      rw [isNameByte, isLetter_of_toLower hletter.1 (UInt8.le_trans hletter.2 (by decide)), Bool.true_or]
    · cases h

theorem isExpressionByte_of_isNumeralByte (h : Numeral.isNumeralByte c) : isExpressionByte c := by
  rw [Numeral.isNumeralByte, Bool.or_eq_true, Bool.or_eq_true, List.contains_iff_mem, List.contains_iff_mem] at h
  rcases h with (h | h) | h
  · rw [isExpressionByte, isNameByte_of_hexValue h, Bool.true_or]
  · have hmarks : [Byte.underscore, Byte.point, Byte.plus, Byte.minus].all isExpressionByte := by decide
    exact List.all_eq_true.1 hmarks c h
  · have hletter : Byte.isLetter c := by
      rw [List.mem_cons, List.mem_singleton] at h
      rcases h with h | h <;> exact isLetter_of_toLower (h ▸ by decide) (h ▸ by decide)
    rw [isExpressionByte, isNameByte, hletter, Bool.true_or, Bool.true_or]

theorem isExpressionByte_constant {divisor : Bool} (hc : c ∈ (ConstantForm.of text divisor).text) :
    isExpressionByte c := by
  rcases constantForm_cases text divisor with ⟨-, hmem⟩ | ⟨-, hnumeral⟩
  · have hcalls : ∀ w ∈ mathCalls, w.all isExpressionByte := by decide +kernel
    exact List.all_eq_true.1 (hcalls _ hmem) c hc
  · exact isExpressionByte_of_isNumeralByte (hnumeral c hc)

/-- No word that is written for a constant begins like a temporary. -/
theorem head_of_mem_words_constant {divisor : Bool} (hw : w ∈ words (ConstantForm.of text divisor).text) :
    w.head? ≠ some Byte.letterT := by
  rcases constantForm_cases text divisor with ⟨-, hmem⟩ | ⟨-, hnumeral⟩
  · have hcalls : ∀ u ∈ mathCalls, ∀ w ∈ words u, w.head? ≠ some Byte.letterT := by decide +kernel
    exact hcalls _ hmem w hw
  · exact fun hhead => absurd (hnumeral _ (mem_of_mem_words hw (List.mem_of_head? hhead))) (by decide)

/-- The letter h is in the name of package `math` and in no literal. -/
def letterH : UInt8 := 104

theorem isCall_of_letterH {divisor : Bool} (h : letterH ∈ (ConstantForm.of text divisor).text) :
    (ConstantForm.of text divisor).isCall := by
  rcases constantForm_cases text divisor with ⟨hcall, -⟩ | ⟨-, hnumeral⟩
  · exact hcall
  · exact absurd (hnumeral _ h) (by decide)

theorem infix_of_isCall {divisor : Bool} (h : (ConstantForm.of text divisor).isCall) :
    bytes "math." <:+: (ConstantForm.of text divisor).text := by
  rcases constantForm_cases text divisor with ⟨-, hmem⟩ | ⟨hliteral, -⟩
  · have hcalls : ∀ w ∈ mathCalls, bytes "math." <:+: w := by decide +kernel
    exact hcalls _ hmem
  · rw [hliteral] at h
    cases h

/-! ### What can be seen in the text of an expression -/

theorem isExpressionByte_source (h : Emitted e) {nested divisor : Bool} (hc : c ∈ e.source nested divisor) :
    isExpressionByte c := by
  induction h generalizing nested divisor with
  | @argument i name h =>
    have hall : ∀ name ∈ parameters, name.all isExpressionByte := by decide +kernel
    exact List.all_eq_true.1 (hall name (List.mem_of_getElem? h)) c hc
  | constant text => exact isExpressionByte_constant hc
  | temporary n => rw [isExpressionByte, isNameByte_temporaryName n c hc, Bool.true_or]
  | operation op _ _ ihl ihr =>
    rcases mem_source_binary hc with hc | hc | hc
    · exact ihl hc
    · exact ihr hc
    · have hmarks : [Byte.space, Byte.openParen, Byte.closeParen, op.symbol].all isExpressionByte := by
        cases op <;> decide +kernel
      exact List.all_eq_true.1 hmarks c hc

/-- **The temporaries that an expression mentions** are those among the words of its text. -/
theorem temporaryName_mem_words_source (h : Emitted e) (nested divisor : Bool) (k : Nat) :
    temporaryName k ∈ words (e.source nested divisor) ↔ (k : Int) ∈ e.temporaries := by
  have hhead : (temporaryName k).head? = some Byte.letterT := rfl
  induction h generalizing nested divisor with
  | @argument i name h =>
    have hall : ∀ name ∈ parameters, ∀ w ∈ words name, w.head? ≠ some Byte.letterT := by decide +kernel
    exact iff_of_false (fun hmem => hall name (List.mem_of_getElem? h) _ hmem hhead) List.not_mem_nil
  | constant text => exact iff_of_false (fun hmem => head_of_mem_words_constant hmem hhead) List.not_mem_nil
  | temporary n =>
    rw [Expr.source, words_temporaryName, Expr.temporaries, List.mem_singleton, List.mem_singleton, Int.natCast_inj]
    exact ⟨temporaryName_injective, fun heq => heq ▸ rfl⟩
  | operation op _ _ ihl ihr =>
    rw [words_source_operation, Expr.temporaries, List.mem_append, List.mem_append]
    exact or_congr (ihl _ _) (ihr _ _)

/-- Only calls into package `math` have an h in them. -/
theorem Emitted.callsMath_of_letterH (h : Emitted e) {nested divisor : Bool} (hmem : letterH ∈ e.source nested divisor) :
    e.callsMath divisor := by
  induction h generalizing nested divisor with
  | @argument i name h =>
    have hall : ∀ name ∈ parameters, letterH ∉ name := by decide +kernel
    exact absurd hmem (hall name (List.mem_of_getElem? h))
  | constant text => exact isCall_of_letterH hmem
  | temporary n =>
    rw [Expr.source, temporaryName_natCast, List.mem_cons] at hmem
    rcases hmem with hmem | hmem
    · exact absurd hmem (by decide)
    · exact absurd (digits_decimal n _ hmem) (by decide)
  | operation op _ _ ihl ihr =>
    rw [Expr.callsMath, Bool.or_eq_true]
    rcases mem_source_binary hmem with hmem | hmem | hmem
    · exact .inl (ihl hmem)
    · exact .inr (ihr hmem)
    · cases op <;> exact absurd hmem (by decide)

theorem infix_of_callsMath {nested divisor : Bool} (h : e.callsMath divisor) :
    bytes "math." <:+: e.source nested divisor := by
  induction e generalizing nested divisor with
  | missing | arg | temp => cases h
  | const text => exact infix_of_isCall h
  | binary b l r ihl ihr =>
    have hbody : bytes "math." <:+: l.source true false ++ [Byte.space, b, Byte.space] ++
        r.source true (b = Operator.div.symbol) := by
      rw [Expr.callsMath, Bool.or_eq_true] at h
      rcases h with h | h
      · exact (ihl h).trans ((List.prefix_append _ _).isInfix.trans (List.prefix_append _ _).isInfix)
      · exact (ihr h).trans (List.suffix_append _ _).isInfix
    cases nested with
    | false => exact hbody
    | true => exact hbody.trans (List.infix_append [Byte.openParen] _ [Byte.closeParen])

end Expressions

end Source

end ComplexFormula
