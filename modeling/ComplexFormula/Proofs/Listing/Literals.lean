import ComplexFormula.Proofs.Grammar.Literals
import ComplexFormula.Proofs.Listing.Declarations
import Mathlib

/-!
# The literals of listings

The numeric literals of a text are found as Go finds them (`literals`): names are passed over with the digits in them, and a
literal goes on as far as anything does that could belong to one, so that no wrong literal is cut into right ones.

What is found in the body of a function is what was printed for the constants of the program, in their order
(`literals_body`). A call into package `math` has literals too.
-/

namespace ComplexFormula

open Lexeme

/-! ## Literals of programs -/

section Programs

/-- A text without the minus in front of it. -/
def Source.unsigned : Bytes → Bytes
  | Byte.minus :: w => w
  | w => w

/-- The literals that are written for a constant. -/
def ConstantForm.literals : ConstantForm → List Bytes
  | .nan => []
  | .infinity _ => [[Byte.one]]
  | .signedZero _ => [[Byte.zero], [Byte.one]]
  | .literal text => [Source.unsigned text]

def Expr.literals (divisor : Bool) : Expr → List Bytes
  | .missing | .arg .. | .temp _ => []
  | .const text => (ConstantForm.of text divisor).literals
  | .binary b l r => l.literals false ++ r.literals (b = Operator.div.symbol)

def Program.literals (p : Program) : List Bytes :=
  p.assigns.flatMap (fun a => a.expr.literals false) ++ (p.re.literals false ++ p.im.literals false)

end Programs

namespace Source

variable {w w' rest text : Bytes} {ls ls' : List Bytes} {b : UInt8} {e l r : Expr}

/-! ## Literals of texts -/

section Texts

/-- The mark of an exponent, decimal or binary. -/
def isExponentMark (b : UInt8) : Bool := Byte.toLower b == Byte.letterE || Byte.toLower b == Byte.letterP

/-- The literal at the front of a text that begins with one: letters, digits and points, and signs after marks. -/
def literalFront (marked : Bool) : Bytes → Bytes
  | [] => []
  | b :: rest =>
    if isWordByte b then b :: literalFront (isExponentMark b) rest
    else if marked ∧ (b = Byte.plus ∨ b = Byte.minus) then b :: literalFront false rest
    else []

/-- The numeric literals in a text. They begin with a digit, or with a point before one. -/
def literals : Bytes → List Bytes
  | [] => []
  | b :: rest =>
    if Byte.isLetter b then literals (rest.drop (rest.takeWhile isNameByte).length)
    else if Byte.isDigit b ∨ (b = Byte.point ∧ rest.head?.any Byte.isDigit) then
      let w := literalFront false (b :: rest)
      w :: literals (rest.drop (w.length - 1))
    else literals rest
termination_by text => text.length
decreasing_by
  all_goals simp only [List.length_cons, List.length_drop]
  all_goals omega

theorem literals_nil : literals [] = [] := by rw [literals]

theorem literals_mark (hb : Byte.isLetter b = false ∧ Byte.isDigit b = false ∧ b ≠ Byte.point) (rest : Bytes) :
    literals (b :: rest) = literals rest := by
  obtain ⟨hletter, hdigit, hpoint⟩ := hb
  rw [literals, if_neg (by simp [hletter]), if_neg (by simp [hdigit, hpoint])]

theorem literals_point (h : ∀ c ∈ rest.head?, Byte.isDigit c = false) :
    literals (Byte.point :: rest) = literals rest := by
  have hdigit : Byte.isDigit Byte.point = false := rfl
  have hnext : rest.head?.any Byte.isDigit = false := by
    rw [Option.any_eq_false]
    simpa using h
  rw [literals, if_neg (by decide), if_neg (by simp [hdigit, hnext])]

theorem literals_name (hb : Byte.isLetter b) (hw : ∀ c ∈ w, isNameByte c = true)
    (hrest : ∀ c ∈ rest.head?, isNameByte c = false) : literals (b :: w ++ rest) = literals rest := by
  rw [List.cons_append, literals, if_pos hb, takeWhile_append hw hrest, List.drop_left]

/-! ### Numbers are literals -/

theorem literalFront_of_plain (hw : ∀ c ∈ w, Byte.isDigit c ∨ c = Byte.point) (hne : w ≠ []) (marked : Bool)
    (rest : Bytes) : literalFront marked (w ++ rest) = w ++ literalFront false rest := by
  induction w generalizing marked with
  | nil => exact absurd rfl hne
  | cons b w ih =>
    have hb : isWordByte b ∧ isExponentMark b = false := by
      have hplain := hw b List.mem_cons_self
      simp only [isWordByte, isExponentMark, Byte.isDigit, Byte.toLower] at hplain ⊢
      grind
    rw [List.cons_append, literalFront, if_pos hb.1, hb.2]
    by_cases hnil : w = []
    · rw [hnil, List.nil_append]
      rfl
    · rw [ih (fun c hc => hw c (List.mem_cons_of_mem _ hc)) hnil]
      rfl

theorem literalFront_of_delimited (h : Delimited rest) : literalFront false rest = [] := by
  cases rest with
  | nil => rfl
  | cons b rest =>
    obtain ⟨hletter, hdigit, hpoint, -⟩ := h b rfl
    rw [literalFront, if_neg (by simp [isWordByte, hletter, hdigit, hpoint]), if_neg (by simp)]

theorem plain_of_mantissa (h : Mantissa w) : (∀ c ∈ w, Byte.isDigit c ∨ c = Byte.point) ∧ w ≠ [] := by
  cases h with
  | whole hw hne => exact ⟨fun c hc => .inl (hw c hc), hne⟩
  | point hw hne hf =>
    refine ⟨fun c hc => ?_, List.append_ne_nil_of_left_ne_nil hne _⟩
    rcases List.mem_append.1 hc with hc | hc
    · exact .inl (hw c hc)
    · exact (List.mem_cons.1 hc).symm.imp (hf c) id
  | fraction hf hne => exact ⟨fun c hc => (List.mem_cons.1 hc).symm.imp (hf c) id, List.cons_ne_nil _ _⟩

/-- A literal goes on to the end of a number. -/
theorem literalFront_number (h : Number w) (hrest : Delimited rest) : literalFront false (w ++ rest) = w := by
  obtain ⟨hm, he⟩ := h
  obtain ⟨hplain, hne⟩ := plain_of_mantissa hm
  rw [List.append_assoc, literalFront_of_plain hplain hne]
  congr 1
  cases he with
  | absent => exact literalFront_of_delimited hrest
  | @present mark sign digits hmark hsign hdigits hne =>
    have hword : isWordByte mark ∧ isExponentMark mark := by rcases hmark with rfl | rfl <;> decide
    have hpower : ∀ marked, literalFront marked (digits ++ rest) = digits := by
      intro marked
      rw [literalFront_of_plain (fun c hc => .inl (hdigits c hc)) hne, literalFront_of_delimited hrest, List.append_nil]
    rw [List.cons_append, literalFront, if_pos hword.1, hword.2, List.append_assoc]
    congr 1
    rcases hsign with rfl | rfl | rfl
    · exact hpower true
    · rw [List.singleton_append, literalFront, if_neg (by decide), if_pos ⟨rfl, .inl rfl⟩, hpower]
      rfl
    · rw [List.singleton_append, literalFront, if_neg (by decide), if_pos ⟨rfl, .inr rfl⟩, hpower]
      rfl

theorem literals_number (h : Number w) (hrest : Delimited rest) : literals (w ++ rest) = w :: literals rest := by
  have hfront := literalFront_number h hrest
  obtain ⟨b, tail, rfl, hb⟩ := start_of_number h
  have hletter : ¬Byte.isLetter b := by
    simp only [Byte.isDigit, Byte.isLetter] at hb ⊢
    grind
  have hstart : Byte.isDigit b ∨ (b = Byte.point ∧ (tail ++ rest).head?.any Byte.isDigit) := by
    refine hb.imp id ?_
    rintro ⟨hpoint, c, hhead, hc⟩
    refine ⟨hpoint, ?_⟩
    rw [List.head?_append, hhead]
    exact hc
  rw [List.cons_append] at hfront
  rw [List.cons_append, literals, if_neg hletter, if_pos hstart]
  simp only [hfront, List.length_cons, Nat.add_sub_cancel, List.drop_left]

/-! ### Pieces of text -/

/-- What ends names and literals. -/
def isSeparator (b : UInt8) : Bool := !isWordByte b && b < 128

theorem isSeparator_iff :
    isSeparator b ↔ Byte.isLetter b = false ∧ Byte.isDigit b = false ∧ b ≠ Byte.point ∧ b < 128 := by
  simp [isSeparator, isWordByte, and_assoc]

/-- The literals of a piece of text, whatever follows, unless it goes on with the piece. -/
def Cuts (w : Bytes) (ls : List Bytes) : Prop := ∀ rest, Delimited rest → literals (w ++ rest) = ls ++ literals rest

theorem Cuts.nil : Cuts [] [] := fun _ _ => rfl

theorem Cuts.number (h : Number w) : Cuts w [w] := fun _ hrest => literals_number h hrest

theorem Cuts.name (hb : Byte.isLetter b) (hw : ∀ c ∈ w, isNameByte c = true) : Cuts (b :: w) [] := by
  intro rest hrest
  refine literals_name hb hw fun c hc => ?_
  obtain ⟨hletter, hdigit, -⟩ := hrest c hc
  rw [isNameByte, hletter, hdigit]
  rfl

/-- The name of a package and a name in it. -/
theorem Cuts.qualified (hb : Byte.isLetter b) (hw : ∀ c ∈ w, isNameByte c = true) (h : Cuts w' [])
    (hw' : ∀ c ∈ w'.head?, Byte.isDigit c = false) (hne : w' ≠ []) : Cuts (b :: w ++ Byte.point :: w') [] := by
  intro rest hrest
  have hnext : ∀ c ∈ (w' ++ rest).head?, Byte.isDigit c = false := by
    rw [List.head?_append_of_ne_nil _ hne]
    exact hw'
  rw [List.append_assoc, literals_name hb hw (by rintro c ⟨⟩; decide), List.cons_append, literals_point hnext]
  exact h rest hrest

theorem Cuts.cons (h : Cuts w ls) (hb : isSeparator b) : Cuts (b :: w) ls := by
  intro rest hrest
  obtain ⟨hletter, hdigit, hpoint, -⟩ := isSeparator_iff.1 hb
  rw [List.cons_append, literals_mark ⟨hletter, hdigit, hpoint⟩]
  exact h rest hrest

theorem Cuts.append (h : Cuts w ls) (hend : Delimited w') (h' : Cuts w' ls') : Cuts (w ++ w') (ls ++ ls') := by
  intro rest hrest
  have hdelimited : Delimited (w' ++ rest) := by
    cases w' with
    | nil => exact hrest
    | cons b w' => exact delimited_cons (hend b rfl) _
  rw [List.append_assoc, h _ hdelimited, h' rest hrest, List.append_assoc]

theorem Cuts.append_cons (h : Cuts w ls) (hb : isSeparator b) (h' : Cuts w' ls') : Cuts (w ++ b :: w') (ls ++ ls') :=
  h.append (delimited_cons (isSeparator_iff.1 hb) w') (h'.cons hb)

end Texts

/-! ## Constants -/

section Constants

variable {divisor : Bool} {m : Magnitude}

/-- **What a literal is**: a zero, or the text of a finite value other than zero, written anew or as it stands. -/
theorem literal_cases (hform : ConstantForm.of text divisor = .literal w) :
    w = [Byte.zero] ∨ ∃ negative m, Numeral.read text = .number negative m ∧ ¬m.isInfinite ∧ ¬m.isZero ∧
      (w = Numeral.write (.number negative m) ∨ w = text ∧ ¬IsOctal text) := by
  unfold ConstantForm.of at hform
  split at hform
  · cases hform
  · rename_i negative m hread
    split_ifs at hform with hinfinite hzero hnegative hdivisor hoctal
    · exact .inl (ConstantForm.literal.inj hform).symm
    · exact .inr ⟨negative, m, hread, hinfinite, hzero, .inl (ConstantForm.literal.inj hform).symm⟩
    · exact .inr ⟨negative, m, hread, hinfinite, hzero, .inr ⟨(ConstantForm.literal.inj hform).symm, hoctal⟩⟩

theorem unsigned_number (h : Number w) (negative : Bool) : unsigned (signOf negative ++ w) = w := by
  cases negative with
  | true => rfl
  | false =>
    obtain ⟨b, tail, rfl, hb⟩ := head_of_number h
    show unsigned (b :: tail) = b :: tail
    unfold unsigned
    split
    · rename_i heq
      exact absurd (List.cons.inj heq).1 (not_sign hb).2
    · rfl

theorem Cuts.signed (h : Number w) (negative : Bool) : Cuts (signOf negative ++ w) [w] := by
  cases negative with
  | true => exact (Cuts.number h).cons (by decide)
  | false => exact Cuts.number h

theorem number_digit (hb : Byte.isDigit b) : Number [b] := by
  have hdigits : Digits [b] := fun c hc => List.mem_singleton.1 hc ▸ hb
  exact .mk (.whole hdigits (List.cons_ne_nil _ _)) .absent

theorem exists_number_of_literal (h : Legible text) (hform : ConstantForm.of text divisor = .literal w) :
    ∃ negative u, w = signOf negative ++ u ∧ Number u := by
  have hwritten : ∀ {negative m}, ¬m.isInfinite → ¬m.isZero →
      ∃ negative' u, Numeral.write (.number negative m) = signOf negative' ++ u ∧ Number u := by
    intro negative m hinfinite hzero
    obtain ⟨p, hspelled, -⟩ := Numeral.layout_spelled hinfinite hzero
    exact ⟨negative, _, Numeral.write_eq hinfinite hzero negative, hspelled.number⟩
  rcases literal_cases hform with rfl | ⟨negative, m, hread, hinfinite, hzero, rfl | ⟨rfl, -⟩⟩
  · exact ⟨false, _, rfl, number_digit rfl⟩
  · exact hwritten hinfinite hzero
  · rcases h with hnumber | ⟨v, rfl⟩
    · exact ⟨false, _, rfl, hnumber⟩
    · rw [Numeral.read_write] at hread
      rw [hread]
      exact hwritten hinfinite hzero

/-- A function of package `math`. -/
theorem cuts_math (hb : Byte.isLetter b) (hw : ∀ c ∈ w, isNameByte c = true) :
    Cuts (bytes "math." ++ b :: w) [] := by
  have hdigit : Byte.isDigit b = false := by
    simp only [Byte.isDigit, Byte.isLetter] at hb ⊢
    grind
  have hpackage : ∀ c ∈ (bytes "math").tail, isNameByte c = true := List.all_eq_true.1 rfl
  exact Cuts.qualified (b := 109) rfl hpackage (Cuts.name hb hw) (by rintro c ⟨⟩; exact hdigit) (List.cons_ne_nil _ _)

theorem cuts_constant (h : Legible text) (divisor : Bool) :
    Cuts (ConstantForm.of text divisor).text (ConstantForm.of text divisor).literals := by
  have hclose : Cuts [Byte.closeParen] [] := Cuts.nil.cons (by decide)
  have hunit : ∀ negative, Cuts (signOf negative ++ [Byte.one]) [[Byte.one]] := Cuts.signed (number_digit rfl)
  cases hform : ConstantForm.of text divisor with
  | nan =>
    have hname : Cuts (bytes "math.NaN") [] :=
      cuts_math (b := 78) (w := (bytes "NaN").tail) rfl (List.all_eq_true.1 rfl)
    exact hname.append_cons (b := Byte.openParen) (by decide) hclose
  | infinity negative =>
    have hname : Cuts (bytes "math.Inf") [] :=
      cuts_math (b := 73) (w := (bytes "Inf").tail) rfl (List.all_eq_true.1 rfl)
    have hcall := hname.append_cons (b := Byte.openParen) (by decide)
      ((hunit negative).append_cons (b := Byte.closeParen) (by decide) .nil)
    cases negative with
    | false => exact hcall
    | true => exact hcall
  | signedZero negative =>
    have hname : Cuts (bytes "math.Copysign") [] :=
      cuts_math (b := 67) (w := (bytes "Copysign").tail) rfl (List.all_eq_true.1 rfl)
    have hsecond := ((hunit negative).append_cons (b := Byte.closeParen) (by decide) .nil).cons
      (b := Byte.space) (by decide)
    have hcall := hname.append_cons (b := Byte.openParen) (by decide)
      ((Cuts.number (number_digit (b := Byte.zero) rfl)).append_cons (b := Byte.comma) (by decide) hsecond)
    cases negative with
    | false => exact hcall
    | true => exact hcall
  | literal w =>
    obtain ⟨negative, u, rfl, hu⟩ := exists_number_of_literal h hform
    rw [ConstantForm.text, ConstantForm.literals, unsigned_number hu]
    exact Cuts.signed hu negative

end Constants

/-! ## Functions -/

section Functions

variable {p : Program} {needed : BitSet} {assigns : List Assign}

theorem Cuts.operation (h : Cuts w ls) (h' : Cuts w' ls') (op : Operator) :
    Cuts (w ++ [Byte.space, op.symbol, Byte.space] ++ w') (ls ++ ls') := by
  have hop : isSeparator op.symbol := by cases op <;> decide
  have hright : Cuts (op.symbol :: Byte.space :: w') ls' := (h'.cons (by decide)).cons hop
  simpa using h.append_cons (b := Byte.space) (by decide) hright

theorem cuts_parameter {i : Nat} {name : Bytes} (h : parameters[i]? = some name) : Cuts name [] := by
  rcases i with _ | _ | i
  · obtain rfl := Option.some.inj h
    exact Cuts.name (b := 114) (w := [101]) rfl (List.all_eq_true.1 rfl)
  · obtain rfl := Option.some.inj h
    exact Cuts.name (b := 105) (w := [109]) rfl (List.all_eq_true.1 rfl)
  · cases h

theorem cuts_temporaryName (n : Nat) : Cuts (temporaryName n) [] := by
  rw [temporaryName_natCast]
  exact Cuts.name rfl fun c hc => by rw [isNameByte, digits_decimal n c hc, Bool.or_true]

/-- **The literals of an expression** are those of its constants. -/
theorem Printable.cuts (h : Printable e) (nested divisor : Bool) :
    Cuts (e.source nested divisor) (e.literals divisor) := by
  induction h generalizing nested divisor with
  | argument h => exact cuts_parameter h
  | constant h => exact cuts_constant h divisor
  | temporary n => exact cuts_temporaryName n
  | operation op _ _ ihl ihr =>
    have hbody := (ihl true false).operation (ihr true (op.symbol = Operator.div.symbol)) op
    cases nested with
    | false => exact hbody
    | true =>
      have hclosed := (hbody.append_cons (b := Byte.closeParen) (by decide) .nil).cons (b := Byte.openParen) (by decide)
      rw [List.append_nil] at hclosed
      exact hclosed

theorem cuts_declaration (n : Nat) (h : Cuts w ls) :
    Cuts ([Byte.tab] ++ temporaryName n ++ bytes " := " ++ w ++ [Byte.lineFeed]) ls := by
  have hvalue : Cuts (colon :: Byte.equals :: Byte.space :: (w ++ [Byte.lineFeed])) (ls ++ []) :=
    (((h.append_cons (by decide) .nil).cons (by decide)).cons (by decide)).cons (by decide)
  have hline := ((cuts_temporaryName n).append_cons (b := Byte.space) (by decide) hvalue).cons (b := Byte.tab) (by decide)
  simpa [show bytes " := " = [Byte.space, colon, Byte.equals, Byte.space] from rfl] using hline

theorem cuts_mention (n : Nat) : Cuts (bytes "\t_ = " ++ temporaryName n ++ [Byte.lineFeed]) [] := by
  have hblank : Cuts [Byte.underscore] [] := Cuts.name rfl (List.forall_mem_nil _)
  have hname : Cuts (Byte.equals :: Byte.space :: (temporaryName n ++ [Byte.lineFeed])) [] :=
    (((cuts_temporaryName n).append_cons (by decide) .nil).cons (by decide)).cons (by decide)
  exact (hblank.append_cons (b := Byte.space) (by decide) hname).cons (b := Byte.tab) (by decide)

theorem cuts_assignSource {a : Assign} {n : Nat} (htemp : a.temp = n) (h : Printable a.expr) :
    Cuts (Program.assignSource needed a) (a.expr.literals false) := by
  have hmention : Cuts (if needed.contains n then [] else bytes "\t_ = " ++ temporaryName n ++ [Byte.lineFeed]) [] := by
    split
    · exact .nil
    · exact cuts_mention n
  have hend : Delimited (if needed.contains n then [] else bytes "\t_ = " ++ temporaryName n ++ [Byte.lineFeed]) := by
    split
    · exact delimited_nil
    · exact delimited_cons (b := Byte.tab) (by decide) _
  have hlines := (cuts_declaration n (h.cuts false false)).append hend hmention
  rw [List.append_nil] at hlines
  rwa [Program.assignSource, htemp, Int.toNat_natCast]

theorem delimited_assigns (assigns : List Assign) : Delimited (assigns.flatMap (Program.assignSource needed)) := by
  cases assigns with
  | nil => exact delimited_nil
  | cons a assigns => exact delimited_cons (b := Byte.tab) (by decide) _

theorem cuts_assigns (h : ∀ a ∈ assigns, (∃ n : Nat, a.temp = n) ∧ Printable a.expr) :
    Cuts (assigns.flatMap (Program.assignSource needed)) (assigns.flatMap fun a => a.expr.literals false) := by
  induction assigns with
  | nil => exact .nil
  | cons a assigns ih =>
    obtain ⟨⟨n, htemp⟩, hprintable⟩ := h a List.mem_cons_self
    rw [List.flatMap_cons, List.flatMap_cons]
    exact (cuts_assignSource htemp hprintable).append (delimited_assigns assigns)
      (ih fun b hb => h b (List.mem_cons_of_mem _ hb))

theorem cuts_resultLine (hre : Printable p.re) (him : Printable p.im) :
    Cuts (resultLine p) (p.re.literals false ++ p.im.literals false) := by
  have hreturn : Cuts (bytes "return") [] :=
    Cuts.name (b := 114) (w := (bytes "return").tail) rfl (List.all_eq_true.1 rfl)
  have hresults := (hre.cuts false false).append_cons (b := Byte.comma) (by decide)
    ((him.cuts false false).cons (b := Byte.space) (by decide))
  rw [resultLine_eq]
  exact (hreturn.append_cons (by decide) hresults).cons (by decide)

/-- **The literals of a body** are those of the program. -/
theorem literals_body (hassigns : ∀ a ∈ p.assigns, (∃ n : Nat, a.temp = n) ∧ Printable a.expr) (hre : Printable p.re)
    (him : Printable p.im) (needed : BitSet) : literals (body p needed) = p.literals := by
  have hclose : Cuts [Byte.lineFeed, closeBrace, Byte.lineFeed] [] :=
    ((Cuts.nil.cons (by decide)).cons (by decide)).cons (by decide)
  have hresults := (cuts_resultLine hre him).append (delimited_cons (by decide) _) hclose
  have hend : Delimited (resultLine p ++ [Byte.lineFeed, closeBrace, Byte.lineFeed]) := by
    rw [resultLine_eq]
    exact delimited_cons (by decide) _
  have hassigns : Cuts (p.assigns.flatMap (Program.assignSource needed)) _ := cuts_assigns hassigns
  have hall := hassigns.append hend hresults [] delimited_nil
  rwa [List.append_nil, List.append_nil, literals_nil, List.append_nil] at hall

example : literals (bytes "\tt1 := (re + 0x1p-2) / 07.e+5 - math.Inf(1) + .5e + 3\n") =
    [bytes "0x1p-2", bytes "07.e+5", bytes "1", bytes ".5e", bytes "3"] := by decide +kernel

end Functions

end Source

end ComplexFormula
