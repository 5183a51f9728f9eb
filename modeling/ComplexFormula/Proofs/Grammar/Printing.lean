import ComplexFormula.Formula.Printer
import ComplexFormula.Proofs.Grammar.Derivation
import Mathlib

/-!
# Printing inverts parsing

The formulas that a text can have are those whose numbers and names are ones of the grammar and whose operators are the
four operators (`Formula.Grammatical`). Such a formula has a text, and the text is derived by the grammar: as a factor
if it stands inside an operation, as an expression if it stands alone (`Formula.Grammatical.render`). Nothing printed
next to a number or a name can go on with it, since all that is ever printed there is a blank or a closing parenthesis;
in the grammar this is settled once, by completeness of parsing.
-/

namespace ComplexFormula

open Lexeme

/-! ## Grammatical formulas -/

inductive Formula.Grammatical : Formula → Prop
  | number {text : Bytes} (h : Number text) : Grammatical (.number text)
  | name {id : Bytes} (h : Name id) : Grammatical (.name id)
  | binary (op : Operator) {l r : Formula} (hl : Grammatical l) (hr : Grammatical r) :
      Grammatical (.binary op.symbol l r)

theorem Derives.grammatical {level : Level} {w : Bytes} {x : Formula} (h : Derives level w x) : x.Grammatical := by
  induction h with
  | term _ ih => exact ih
  | sum _ _ hop _ ih ih' =>
    obtain ⟨o, -, rfl⟩ := Scan.symbol_sumOperators.1 hop
    exact .binary o ih ih'
  | factor _ ih => exact ih
  | product _ _ hop _ ih ih' =>
    obtain ⟨o, -, rfl⟩ := Scan.symbol_productOperators.1 hop
    exact .binary o ih ih'
  | parenthesized _ _ _ ih => exact ih
  | number _ hw => exact .number hw
  | name _ hw => exact .name hw

/-! ## Texts that are printed -/

theorem Lexeme.Blank.append {ws ws' : Bytes} (h : Blank ws) (h' : Blank ws') : Blank (ws ++ ws') :=
  List.forall_mem_append.2 ⟨h, h'⟩

theorem Lexeme.blank_space : Blank [Byte.space] := by
  intro b hb
  exact .inl (List.mem_singleton.1 hb)

theorem Lexeme.blank_nil : Blank [] := nofun

/-- Blanks may stand before a factor. -/
theorem Derives.behindBlanks {ws w : Bytes} {x : Formula} (hws : Blank ws) (h : Derives .factor w x) :
    Derives .factor (ws ++ w) x := by
  cases h with
  | parenthesized hws₁ h hws₂ =>
    rw [← List.append_assoc]
    exact .parenthesized (hws.append hws₁) h hws₂
  | number hws₁ hw =>
    rw [← List.append_assoc]
    exact .number (hws.append hws₁) hw
  | name hws₁ hw =>
    rw [← List.append_assoc]
    exact .name (hws.append hws₁) hw

theorem asChar_symbol (op : Operator) : Byte.asChar op.symbol = [op.symbol] := by cases op <;> rfl

/-- Two factors with an operator between blanks are an expression. -/
theorem Derives.operation (op : Operator) {w w' : Bytes} {x y : Formula} (h : Derives .factor w x)
    (h' : Derives .factor w' y) :
    Derives .expression (w ++ [Byte.space] ++ op.symbol :: ([Byte.space] ++ w')) (.binary op.symbol x y) := by
  have hright := h'.behindBlanks blank_space
  cases op with
  | add => exact .sum (.term (.factor h)) blank_space (.inl rfl) (.factor hright)
  | sub => exact .sum (.term (.factor h)) blank_space (.inr rfl) (.factor hright)
  | mul => exact .term (.product (.factor h) blank_space (.inl rfl) hright)
  | div => exact .term (.product (.factor h) blank_space (.inr rfl) hright)

/-- **What is printed is derived**, as a factor inside an operation and as an expression on its own. -/
theorem Formula.Grammatical.render {x : Formula} (h : x.Grammatical) :
    (∃ w, x.render true = .ok w ∧ Derives .factor w x) ∧ ∃ w, x.render false = .ok w ∧ Derives .expression w x := by
  induction h with
  | @number text h =>
    have hfactor : Derives .factor text (.number text) := .number blank_nil h
    exact ⟨⟨text, rfl, hfactor⟩, text, rfl, .term (.factor hfactor)⟩
  | @name id h =>
    have hfactor : Derives .factor id (.name id) := .name blank_nil h
    exact ⟨⟨id, rfl, hfactor⟩, id, rfl, .term (.factor hfactor)⟩
  | @binary op l r _ _ ihl ihr =>
    obtain ⟨⟨wl, hwl, hl⟩, -⟩ := ihl
    obtain ⟨⟨wr, hwr, hr⟩, -⟩ := ihr
    have hbody := Derives.operation op hl hr
    have hprinted : ∀ inside, (Formula.binary op.symbol l r).render inside =
        .ok (if inside then [Byte.openParen] ++ (wl ++ [Byte.space] ++ op.symbol :: ([Byte.space] ++ wr)) ++
          [Byte.closeParen] else wl ++ [Byte.space] ++ op.symbol :: ([Byte.space] ++ wr)) := by
      intro inside
      simp [Formula.render, hwl, hwr, asChar_symbol, Except.mapError, bind, Except.bind, pure, Except.pure]
    refine ⟨⟨_, hprinted true, ?_⟩, _, hprinted false, hbody⟩
    have henclosed := Derives.parenthesized blank_nil hbody blank_nil
    simpa using henclosed

/-! ## Both directions -/

theorem Formula.parse_of_derivesText {text : Bytes} {x : Formula} (h : DerivesText text x) :
    Formula.parse text = .ok x := by
  obtain ⟨tree, rfl, htree⟩ := h.conclude
  rw [Formula.parse_eq, htree]

theorem Formula.grammatical_of_parse {text : Bytes} {x : Formula} (h : Formula.parse text = .ok x) :
    x.Grammatical := by
  rw [Formula.parse_eq] at h
  cases hverdict : (Scan.expression text).conclude text with
  | error verdict =>
    rw [hverdict] at h
    cases h
  | ok tree =>
    rw [hverdict] at h
    cases h
    obtain ⟨_, _, -, hw, -⟩ := Scan.derivesText_of_conclude hverdict
    exact hw.grammatical

/-- A grammatical formula has a text, which is parsed to it. -/
theorem Formula.Grammatical.parse_append {x : Formula} (h : x.Grammatical) :
    ∃ text, x.append [] = .ok text ∧ Formula.parse text = .ok x := by
  obtain ⟨-, w, hw, hderives⟩ := h.render
  refine ⟨w, ?_, parse_of_derivesText ⟨w, [], (List.append_nil w).symm, hderives, blank_nil⟩⟩
  rw [append, hw]
  rfl

/-- **Printing is a right inverse of parsing.** The formulas that parsing can give are the grammatical ones. Each has a
text that is parsed to it; so printing what a text was parsed to gives a text of the same formula, and printing again
changes nothing. -/
theorem Formula.parse_of_append (x : Formula) :
    (x.Grammatical ↔ ∃ text, Formula.parse text = .ok x) ∧
    (x.Grammatical → ∃ text, x.append [] = .ok text ∧ Formula.parse text = .ok x) ∧
    ∀ text, Formula.parse text = .ok x → ∃ printed, x.append [] = .ok printed ∧ Formula.parse printed = .ok x ∧
      ∀ y, Formula.parse printed = .ok y → y.append [] = .ok printed := by
  refine ⟨⟨fun h => ?_, fun ⟨text, h⟩ => grammatical_of_parse h⟩, fun h => h.parse_append, fun text h => ?_⟩
  · obtain ⟨text, -, htext⟩ := h.parse_append
    exact ⟨text, htext⟩
  · obtain ⟨printed, hprinted, hparse⟩ := (grammatical_of_parse h).parse_append
    refine ⟨printed, hprinted, hparse, fun y hy => ?_⟩
    rw [hparse] at hy
    cases hy
    exact hprinted

/-- `(2. - aé) / (.5 * 1e3)`: numbers that end in a point, begin with one or have an exponent, and a name beyond ASCII. -/
def mixedLexemes : Formula :=
  .binary Byte.slash (.binary Byte.minus (.number (bytes "2.")) (.name (bytes "aé")))
    (.binary Byte.star (.number (bytes ".5")) (.number (bytes "1e3")))

theorem grammatical_mixedLexemes : mixedLexemes.Grammatical := by
  have hdigit : ∀ b, Byte.isDigit b = true → Digits [b] := fun b hb d hd => List.mem_singleton.1 hd ▸ hb
  have htwo : Number ([50] ++ Byte.point :: [] ++ []) :=
    .mk (.point (hdigit 50 rfl) (List.cons_ne_nil _ _) nofun) .absent
  have hhalf : Number (Byte.point :: [53] ++ []) := .mk (.fraction (hdigit 53 rfl) (List.cons_ne_nil _ _)) .absent
  have hthousand : Number ([49] ++ Byte.letterE :: ([] ++ [51])) :=
    .mk (.whole (hdigit 49 rfl) (List.cons_ne_nil _ _))
      (.present (.inl rfl) (.inl rfl) (hdigit 51 rfl) (List.cons_ne_nil _ _))
  have hname : Name (97 :: (String.utf8EncodeChar 'é' ++ [])) := .mk rfl (.char (by decide) (by decide) .nil)
  exact .binary .div (.binary .sub (.number htwo) (.name hname)) (.binary .mul (.number hhalf) (.number hthousand))

theorem parse_of_append_mixedLexemes :
    mixedLexemes.Grammatical ∧ mixedLexemes.append [] = .ok (bytes "(2. - aé) / (.5 * 1e3)") ∧
    Formula.parse (bytes "(2. - aé) / (.5 * 1e3)") = .ok mixedLexemes ∧
    ∃ printed, mixedLexemes.append [] = .ok printed ∧ Formula.parse printed = .ok mixedLexemes ∧
      ∀ y, Formula.parse printed = .ok y → y.append [] = .ok printed := by
  have hprinted : mixedLexemes.append [] = .ok (bytes "(2. - aé) / (.5 * 1e3)") := by decide
  obtain ⟨-, hright, hagain⟩ := mixedLexemes.parse_of_append
  obtain ⟨text, htext, hparse⟩ := hright grammatical_mixedLexemes
  rw [hprinted] at htext
  cases htext
  exact ⟨grammatical_mixedLexemes, hprinted, hparse, hagain _ hparse⟩

end ComplexFormula
