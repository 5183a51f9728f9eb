import ComplexFormula.Proofs.Grammar.Cursor
import ComplexFormula.Proofs.Grammar.ViablePrefix
import ComplexFormula.Proofs.Listing.ReadBack
import ComplexFormula.Proofs.Numeral.Shortest
import ComplexFormula.Proofs.Program.Inlining
import ComplexFormula.Transcript
import Mathlib

/-!
# Numbers are scanned and read alike

Two parts of the program look at numbers: scanning a formula takes one off the front of the text, and reading a constant
gives it a value. What is scanned is the longest number there is (`Number.length_le_numberLength`), and each number can be
read. So no formula has a number that cannot be read, and no constant that a formula leads to stands for zero because it
is no numeral (`form?_of_mem_drive`).

What is read is the nearest value, unless there are too many digits (`Spelled.read_isNearest_of_length_le`). With more
than eight hundred digits before the point it may be another one (`overlongNumeral_misread`), but not if all digits
behind the first nineteen are zeros (`Spelled.read_isNearest_of_zeros`).
-/

namespace ComplexFormula

open Lexeme

namespace Lexeme

/-! ## The longest number -/

theorem le_exponentLength {e : Bytes} (he : Exponent e) (rest : Bytes) :
    e.length ≤ Parser.exponentLength (e ++ rest) := by
  cases he with
  | absent => exact Nat.zero_le _
  | @present mark sign digits hmark hsign hdigits hne =>
    obtain ⟨more, tail, rfl, hmore, htail⟩ := exists_takeWhile Byte.isDigit rest
    have hall : Digits (digits ++ more) := hdigits.append hmore
    have hne' : digits ++ more ≠ [] := List.append_ne_nil_of_left_ne_nil hne more
    have hrun := takeWhile_append hall htail
    have hsigned : (Numeral.sign (sign ++ (digits ++ more) ++ tail)).2 = sign.length := sign_append hsign hall hne'
    simp only [List.append_assoc] at hrun hsigned
    simp only [List.cons_append, List.append_assoc, Parser.exponentLength, if_pos (mark_iff.2 hmark), hsigned,
      List.drop_left, hrun, if_neg hne', List.length_cons, List.length_append]
    omega

theorem le_numberLength_point {w f : Bytes} (hw : Digits w) (hf : Digits f) (hne : ¬(w = [] ∧ f = [])) (rest : Bytes) :
    w.length + 1 + f.length ≤ Parser.numberLength (w ++ Byte.point :: (f ++ rest)) := by
  obtain ⟨more, tail, rfl, hmore, htail⟩ := exists_takeWhile Byte.isDigit rest
  have hlength := numberLength_point hw (hf.append hmore) htail
  have hne' : ¬(w = [] ∧ f ++ more = []) := fun h => hne ⟨h.1, (List.append_eq_nil_iff.1 h.2).1⟩
  rw [← List.append_assoc, hlength, if_neg hne', List.length_append]
  omega

theorem le_numberLength_whole {w : Bytes} (hw : Digits w) (hne : w ≠ []) (rest : Bytes) :
    w.length ≤ Parser.numberLength (w ++ rest) := by
  obtain ⟨more, tail, rfl, hmore, htail⟩ := exists_takeWhile Byte.isDigit rest
  have hall : Digits (w ++ more) := hw.append hmore
  have hne' : w ++ more ≠ [] := List.append_ne_nil_of_left_ne_nil hne more
  rw [← List.append_assoc]
  by_cases hpoint : ∃ rest, tail = Byte.point :: rest
  · obtain ⟨rest, rfl⟩ := hpoint
    have hle := le_numberLength_point (f := []) hall nofun (fun h => hne' h.1) rest
    rw [List.nil_append, List.length_append] at hle
    omega
  · have htail' : ∀ b ∈ tail.head?, Byte.isDigit b = false ∧ b ≠ Byte.point := by
      intro b hb
      refine ⟨htail b hb, ?_⟩
      rintro rfl
      exact hpoint (List.head?_eq_some_iff.1 hb)
    rw [numberLength_whole hall htail', if_neg hne', List.length_append]
    omega

/-- **A scan goes at least as far as any number** at the front of the text. -/
theorem Number.length_le_numberLength {w : Bytes} (hw : Number w) (rest : Bytes) :
    w.length ≤ Parser.numberLength (w ++ rest) := by
  obtain ⟨hm, he⟩ := hw
  cases he with
  | absent =>
    rw [List.append_nil]
    cases hm with
    | whole hd hne => exact le_numberLength_whole hd hne rest
    | point hd hne hf =>
      have hle := le_numberLength_point hd hf (fun h => hne h.1) rest
      rw [List.append_assoc, List.cons_append, List.length_append, List.length_cons]
      omega
    | fraction hf hne =>
      have hle := le_numberLength_point (w := []) nofun hf (fun h => hne h.2) rest
      rw [List.nil_append, List.length_nil] at hle
      rw [List.cons_append, List.length_cons]
      omega
  | @present mark sign digits hmark hsign hdigits hne =>
    -- a mark ends the digits before it
    have hexponent := le_exponentLength (.present hmark hsign hdigits hne) rest
    have htail : ∀ b ∈ (mark :: (sign ++ digits) ++ rest).head?, Byte.isDigit b = false ∧ b ≠ Byte.point := by
      rintro b ⟨⟩
      exact (letter_of_mark hmark).2
    rw [List.append_assoc, numberLength_mantissa hm htail, List.length_append]
    omega

/-- The longest number at the front of a text. -/
structure IsLongestNumber (text w : Bytes) : Prop where
  front : w <+: text
  number : Number w
  longest : ∀ v, v <+: text → Number v → v.length ≤ w.length

/-- A scan finds the longest number. -/
theorem isLongestNumber_of_numberLength {text : Bytes} (h : Parser.numberLength text ≠ 0) :
    IsLongestNumber text (text.take (Parser.numberLength text)) := by
  obtain ⟨w, rest, hsplit, hlength, hw⟩ := exists_number h
  have htaken : text.take (Parser.numberLength text) = w := by rw [hlength, hsplit, List.take_left]
  rw [htaken]
  refine ⟨⟨rest, hsplit.symm⟩, hw, ?_⟩
  rintro v ⟨tail, htail⟩ hv
  rw [← hlength, ← htail]
  exact hv.length_le_numberLength tail

theorem numberLength_ne_zero {text w : Bytes} (hfront : w <+: text) (hw : Number w) : Parser.numberLength text ≠ 0 := by
  obtain ⟨rest, rfl⟩ := hfront
  have hle := hw.length_le_numberLength rest
  obtain ⟨b, tail, rfl, -⟩ := head_of_number hw
  rw [List.length_cons] at hle
  omega

end Lexeme

namespace Parser

variable {σ ε α : Type} {builder : Builder σ ε α} {text : Bytes}

/-- Where a number can be scanned, the builder gets the longest one. -/
theorem number_of_ne_zero (h : numberLength text ≠ 0) (s : Session σ ε) :
    number builder text s =
      offer (bytes "number") (builder.number (text.take (numberLength text))) (numberLength text) s := by
  have hform := form?_number (isLongestNumber_of_numberLength h).number
  unfold number
  split
  · contradiction
  · rw [if_pos hform]

theorem number_of_eq_zero (h : numberLength text = 0) (s : Session σ ε) :
    number builder text s = (.failed ⟨[], .numberExpected⟩ 0, s) := by
  rw [number, h]
  rfl

end Parser

namespace Magnitude

variable {q : Rat} {m : Magnitude}

/-! ## Numbers beyond all values -/

theorem two_pow_le_ten_pow : (2 : Rat) ^ 1024 ≤ 10 ^ 400 := by
  calc (2 : Rat) ^ 1024 ≤ 2 ^ (3 * 400) := pow_le_pow_right₀ (by norm_num) (by norm_num)
    _ = (2 ^ 3) ^ 400 := pow_mul _ _ _
    _ ≤ 10 ^ 400 := pow_le_pow_left₀ (by norm_num) (by norm_num) _

theorem IsNearest.eq_infinity (h : IsNearest q m) {e : Int} (he : 10 ^ e ≤ q) (hlarge : 400 ≤ e) : m = infinity := by
  by_cases hm : m.isInfinite
  · exact isInfinite_iff.1 hm
  · have hlow : (2 : Rat) ^ 1024 ≤ q := by
      calc (2 : Rat) ^ 1024 ≤ 10 ^ (400 : Int) := two_pow_le_ten_pow
        _ ≤ 10 ^ e := zpow_le_zpow_right₀ (by norm_num) hlarge
        _ ≤ q := he
    exact absurd hlow (h.lt_infinity hm).not_ge

theorem IsNearest.eq_zero (h : IsNearest q m) (hq : 0 ≤ q) {e : Int} (he : q ≤ 10 ^ e) (hsmall : e ≤ -1075) :
    m = zero := by
  by_cases hm : m.isZero
  · exact isZero_iff.1 hm
  · have := h.lt_exponent hm hq he
    omega

end Magnitude

namespace Lexeme

variable {p : Parts} {w : Bytes}

/-! ## How many digits are read -/

theorem Spelled.filter_whole (h : Spelled p w) : p.whole.filter (· != Byte.underscore) = p.whole := by
  rw [List.filter_eq_self]
  intro b hb
  have hdigit := h.digits.1 b hb
  refine bne_iff_ne.2 ?_
  rintro rfl
  exact absurd hdigit (by decide)

/-- Zeros in front are not counted. -/
theorem Spelled.uncounted_eq_zero (h : Spelled p w) (hwhole : (p.whole.dropWhile (· == Byte.zero)).length ≤ 800) :
    p.uncounted = 0 := by
  refine if_pos ?_
  rw [h.filter_whole]
  exact hwhole

/-- Zeros behind the first nineteen digits leave nothing to settle. -/
theorem Spelled.uncounted_of_zeros (h : Spelled p w)
    (hzeros : ∀ b ∈ (p.whole.dropWhile (· == Byte.zero)).drop 19 ++ p.fraction, b = Byte.zero) : p.uncounted = 0 := by
  have hexact : ((p.whole.dropWhile (· == Byte.zero)).drop Numeral.leadingDigits ++ p.fraction).any
      (fun b => b != Byte.zero && b != Byte.underscore) = false := by
    rw [List.any_eq_false]
    intro b hb
    rw [hzeros b hb]
    decide
  unfold Parts.uncounted Numeral.uncounted
  dsimp only
  rw [h.filter_whole, hexact]
  split
  · rfl
  · exact if_pos rfl

theorem digitsValue_dropWhile (ds : Bytes) : digitsValue 10 (ds.dropWhile (· == Byte.zero)) = digitsValue 10 ds := by
  induction ds with
  | nil => rfl
  | cons d ds ih =>
    by_cases hd : d = Byte.zero
    · subst hd
      rw [List.dropWhile_cons_of_pos (by decide), ih]
      exact (Numeral.digitsValue_zeros_append 1 ds).symm
    · rw [List.dropWhile_cons_of_neg (by simpa using hd)]

theorem Spelled.coefficient_lt (h : Spelled p w) :
    p.coefficient < 10 ^ ((p.whole.dropWhile (· == Byte.zero)).length + p.fraction.length) := by
  have hdigits : Digits (p.whole.dropWhile (· == Byte.zero) ++ p.fraction) :=
    Digits.append (fun b hb => h.digits.1 b ((List.dropWhile_sublist _).subset hb)) h.digits.2.1
  have hlt := digitsValue_lt hdigits
  rwa [digitsValue_append, digitsValue_dropWhile, ← digitsValue_append, List.length_append] at hlt

theorem scaled_nonneg (c : Nat) (e : Int) : (0 : Rat) ≤ c * 10 ^ e :=
  mul_nonneg (Nat.cast_nonneg _) (zpow_nonneg (by norm_num) _)

theorem pow_le_scaled {c : Nat} (hc : 0 < c) {k e : Int} (h : k ≤ e) : (10 : Rat) ^ k ≤ c * 10 ^ e := by
  have hone : (1 : Rat) ≤ c := Nat.one_le_cast.2 hc
  calc (10 : Rat) ^ k ≤ 10 ^ e := zpow_le_zpow_right₀ (by norm_num) h
    _ ≤ c * 10 ^ e := le_mul_of_one_le_left (zpow_nonneg (by norm_num) _) hone

theorem scaled_le_pow {c n : Nat} (hc : c < 10 ^ n) {e k : Int} (h : n + e ≤ k) : (c * 10 ^ e : Rat) ≤ 10 ^ k := by
  calc (c * 10 ^ e : Rat) ≤ (10 ^ n : Nat) * 10 ^ e :=
        mul_le_mul_of_nonneg_right (Nat.cast_le.2 hc.le) (zpow_nonneg (by norm_num) _)
    _ = 10 ^ (n + e) := by rw [Nat.cast_pow, Nat.cast_ofNat, zpow_add₀ (by norm_num), zpow_natCast]
    _ ≤ 10 ^ k := zpow_le_zpow_right₀ (by norm_num) h

/-- **A number is read as the magnitude nearest to it** if there are at most eight hundred digits before the point, and
at most eight thousand behind it or an exponent of at most five digits. -/
theorem Spelled.read_isNearest_of_length_le (h : Spelled p w)
    (hwhole : (p.whole.dropWhile (· == Byte.zero)).length ≤ 800)
    (hpower : digitsValue 10 p.power < 100000 ∨ p.fraction.length ≤ 8000) (negative : Bool) :
    ∃ m, Numeral.read (signOf negative ++ w) = .number negative m ∧ Magnitude.IsNearest p.toRat m := by
  have huncounted := h.uncounted_eq_zero hwhole
  rcases exponentValue_cases h.digits.2.2.1 with hexact | ⟨hlarge, hle, hwritten⟩
  · exact h.read_isNearest ⟨hexact, huncounted⟩ negative
  · have hfraction : p.fraction.length ≤ 8000 := by omega
    refine ⟨_, h.read negative, ?_⟩
    have hread := Magnitude.ofScaled_isNearest (show 0 < 10 by norm_num) p.coefficient
      (p.readExponent - p.fraction.length - p.uncounted)
    rw [Nat.cast_ofNat] at hread
    generalize Magnitude.ofScaled 10 p.coefficient _ = m at hread ⊢
    rw [huncounted, Nat.cast_zero, sub_zero] at hread
    have hcoefficient := h.coefficient_lt
    obtain ⟨m', hm'⟩ := Magnitude.exists_isNearest (scaled_nonneg p.coefficient (p.exponent - p.fraction.length))
    rw [Parts.toRat]
    rcases Nat.eq_zero_or_pos p.coefficient with hzero | hpos
    · rwa [hzero, Nat.cast_zero, zero_mul] at hread ⊢
    · -- what is read and what is written are both too large, or both too small
      cases hsign : p.negative with
      | false =>
        simp only [Parts.readExponent, Parts.exponent, hsign, Bool.false_eq_true, if_false] at hread hm' ⊢
        rw [hread.eq_infinity (pow_le_scaled hpos (show (2000 : Int) ≤ _ by omega)) (by norm_num)]
        rwa [hm'.eq_infinity (pow_le_scaled hpos (show (2000 : Int) ≤ _ by omega)) (by norm_num)] at hm'
      | true =>
        simp only [Parts.readExponent, Parts.exponent, hsign, if_true] at hread hm' ⊢
        rw [hread.eq_zero (scaled_nonneg _ _) (scaled_le_pow hcoefficient (show _ ≤ (-9200 : Int) by omega)) (by norm_num)]
        rwa [hm'.eq_zero (scaled_nonneg _ _) (scaled_le_pow hcoefficient (show _ ≤ (-9200 : Int) by omega)) (by norm_num)] at hm'

/-- **However long a number is, it is read as the magnitude nearest to it** if only zeros follow its first nineteen
digits. -/
theorem Spelled.read_isNearest_of_zeros (h : Spelled p w)
    (hzeros : ∀ b ∈ (p.whole.dropWhile (· == Byte.zero)).drop 19 ++ p.fraction, b = Byte.zero)
    (hpower : digitsValue 10 p.power < 100000) (negative : Bool) :
    ∃ m, Numeral.read (signOf negative ++ w) = .number negative m ∧ Magnitude.IsNearest p.toRat m := by
  refine h.read_isNearest ⟨?_, h.uncounted_of_zeros hzeros⟩ negative
  rcases exponentValue_cases h.digits.2.2.1 with hexact | ⟨-, -, hwritten⟩
  · exact hexact
  · omega

-- a half-way point, a power of ten and a number that overflows, each with more than eight hundred digits
example :
    Numeral.read (bytes "9007199254740993" ++ List.replicate 789 Byte.zero ++ bytes "e-789") =
      Numeral.read (bytes "9007199254740992") ∧
    Numeral.read (bytes "1" ++ List.replicate 801 Byte.zero ++ bytes "e-801") = Numeral.read (bytes "1") ∧
    Numeral.read (bytes "2" ++ List.replicate 800 Byte.zero ++ bytes "e-492") = .number false .infinity := by
  decide +kernel

end Lexeme

/-! ## Texts that can be read -/

/-- What is written is a numeral. -/
theorem Numeral.form?_write (v : Binary64) : (form? (write v)).isSome := by
  cases v with
  | nan => decide +kernel
  | number negative m =>
    by_cases hinfinite : m.isInfinite
    · rw [write, if_pos hinfinite]
      cases negative <;> decide +kernel
    · by_cases hzero : m.isZero
      · rw [write, if_neg hinfinite, if_pos hzero]
        cases negative <;> decide +kernel
      · obtain ⟨p, hspelled, -⟩ := layout_spelled hinfinite hzero
        rw [write_eq hinfinite hzero, form?_spelled hspelled negative]
        rfl

theorem Source.Legible.form? {text : Bytes} (h : Source.Legible text) : (Numeral.form? text).isSome := by
  rcases h with h | ⟨v, rfl⟩
  · exact form?_number h
  · exact Numeral.form?_write v

/-! ## Numbers of formulas -/

section Formulas

open Build

variable {σ ε α : Type} {text w : Bytes}

theorem ParseTree.mem_postorder_number {x : ParseTree} : .number w ∈ x.postorder ↔ w ∈ x.formula.numbers := by
  induction x with
  | number text => simp [postorder, formula, Formula.numbers]
  | name id => simp [postorder, formula, Formula.numbers]
  | operation op l r ihl ihr => simp [postorder, formula, Formula.numbers, ihl, ihr]

/-- **The builder gets nothing but numbers**, also from a text that turns out to be malformed. -/
theorem number_of_mem_callsOf (h : .number w ∈ callsOf text) : Number w := by
  have hderived : ∀ {text' tree}, DerivesText text' (ParseTree.formula tree) → .number w ∈ tree.postorder → Number w := by
    rintro text' tree ⟨_, _, -, hderives, -⟩ hmem
    exact hderives.grammatical.number_of_mem w (ParseTree.mem_postorder_number.1 hmem)
  rw [callsOf_eq] at h
  cases hverdict : (Scan.expression text).conclude text with
  | ok x =>
    obtain ⟨used, hscan, -⟩ := Scan.conclude_eq_ok hverdict
    rw [hscan, Scan.trees, List.flatMap_singleton] at h
    exact hderived (Scan.derivesText_of_conclude hverdict) h
  | error verdict =>
    obtain ⟨-, -, text', tree, -, hderives, hcalls⟩ := Scan.exists_completion hverdict
    exact hderived hderives (hcalls.subset h)

theorem keeps_foldAll {P : σ → Prop} {builder : Builder σ ε α} {xs : List ParseTree}
    (h : ∀ x ∈ xs, Keeps P (x.fold builder)) : Keeps P (ParseTree.foldAll builder xs) := by
  induction xs with
  | nil => exact keeps_pure _
  | cons x xs ih =>
    refine (h x List.mem_cons_self).bind fun a => ?_
    exact (ih fun y hy => h y (List.mem_cons_of_mem _ hy)).bind fun values => keeps_pure _

/-- Driving a builder leaves what folding the trees of the text leaves. -/
theorem drive_state (builder : Builder σ ε α) (text : Bytes) (state : σ) :
    (builder.drive text state).2 = (ParseTree.foldAll builder (Scan.expression text).trees state).2 := by
  rcases hfold : ParseTree.foldAll builder (Scan.expression text).trees state with ⟨e | values, state'⟩
  · rw [drive_of_foldAll_error hfold]
  · have hdrive := drive_of_foldAll_ok hfold
    split at hdrive
    · obtain ⟨a, -, -, hdrive⟩ := hdrive
      rw [hdrive]
    · rw [hdrive]

/-- **All constants of a text can be read**, those that stand there and those that were computed. -/
theorem form?_of_mem_drive {v : Value} (hv : v ∈ (Components.builder.drive text .new).2.values)
    (hk : v.kind = .constant) : (Numeral.form? v.text).isSome := by
  have hkeeps : Keeps ValueTable.Legible (ParseTree.foldAll Components.builder (Scan.expression text).trees) := by
    refine keeps_foldAll fun x hx => ?_
    rw [ParseTree.fold_componentsBuilder]
    refine Formula.keeps_legible_decompose fun w hw => ?_
    have hcall : .number w ∈ callsOf text := by
      rw [callsOf_eq]
      exact List.mem_flatMap.2 ⟨x, hx, ParseTree.mem_postorder_number.2 hw⟩
    exact number_of_mem_callsOf hcall
  rw [drive_state] at hv
  exact (hkeeps _ ValueTable.legible_new v hv hk).form?

/-! ## Constants of programs -/

/-- The texts of the constants in an expression. -/
def Expr.constants : Expr → List Bytes
  | .missing | .arg .. | .temp _ => []
  | .const text => [text]
  | .binary _ l r => l.constants ++ r.constants

def Program.constants (p : Program) : List Bytes :=
  p.assigns.flatMap (fun a => a.expr.constants) ++ (p.re.constants ++ p.im.constants)

namespace ValueTable

variable {t : ValueTable} {named : List Nat} {r re im : Ref} {e : Expr} {p : Program}

/-- A constant of an expression is one of the table. -/
theorem RefersTo.mem_constants (he : t.RefersTo named r e) (hw : w ∈ e.constants) :
    ∃ v ∈ t.values, v.kind = .constant ∧ v.text = w := by
  induction he with
  | temporary => cases hw
  | argument => cases hw
  | constant hv hk => exact ⟨_, Array.mem_of_getElem? hv, hk, (List.mem_singleton.1 hw).symm⟩
  | operation _ _ _ _ _ iha ihb =>
    rcases List.mem_append.1 hw with hw | hw
    · exact iha hw
    · exact ihb hw

theorem mem_constants_of_toProgram (ht : t.WellFormed) (hp : t.toProgram re im = .ok p) (hw : w ∈ p.constants) :
    ∃ v ∈ t.values, v.kind = .constant ∧ v.text = w := by
  have hemits := emits_of_toProgram ht hp
  rcases List.mem_append.1 hw with hw | hw
  · obtain ⟨a, ha, hw⟩ := List.mem_flatMap.1 hw
    obtain ⟨k, hk⟩ := List.mem_iff_getElem?.1 ha
    obtain ⟨-, i, v, -, -, -, x, y, heq, hx, hy⟩ := hemits.assign k a hk
    rw [heq] at hw
    rcases List.mem_append.1 hw with hw | hw
    · exact hx.mem_constants hw
    · exact hy.mem_constants hw
  · rcases List.mem_append.1 hw with hw | hw
    · exact hemits.re.mem_constants hw
    · exact hemits.im.mem_constants hw

end ValueTable

/-- **The constants of a program** are numbers of its formula, or were written for values. -/
theorem Formula.mem_constants_of_compile {x : Formula} {p : Program} (hx : x.compile = .ok p) (hw : w ∈ p.constants) :
    w ∈ x.numbers ∨ ∃ v, w = Numeral.write v := by
  obtain ⟨c, t, hrun, hprogram⟩ := Formula.compile_eq_ok hx
  have hconstants := x.keeps_constantsHave_decompose (fun v => .inr ⟨v, rfl⟩) (fun _ => .inl) .new
    (ValueTable.constantsHave_new (P := fun w => w ∈ x.numbers ∨ ∃ v, w = Numeral.write v))
  have hreachable := x.keeps_reachable_decompose .new .new
  rw [hrun] at hconstants hreachable
  obtain ⟨v, hv, hk, rfl⟩ := ValueTable.mem_constants_of_toProgram hreachable.wellFormed hprogram hw
  exact hconstants v hv hk

theorem form?_of_mem_compile {p : Program} (hp : compile text = .ok p) (hw : w ∈ p.constants) :
    (Numeral.form? w).isSome := by
  obtain ⟨x, hx, hcompile⟩ := exists_formula_of_compile hp
  rcases Formula.mem_constants_of_compile hcompile hw with hnumber | ⟨v, rfl⟩
  · exact form?_number (hx.number_of_mem w hnumber)
  · exact Numeral.form?_write v

/-- A text is not rejected for a number that cannot be read. -/
theorem ne_malformedNumber_of_drive {builder : Builder σ ε α} {state state' : σ} {position : Nat} {why : Failure ε}
    (h : builder.drive text state = (.error (.malformed position why), state')) : why.cause ≠ .malformedNumber w := by
  obtain ⟨cause, hverdict, rfl, -⟩ := conclude_of_drive_malformed h
  obtain ⟨-, htextual, -⟩ := Scan.exists_completion hverdict
  intro heq
  have hlift : (cause.lift : Failure ε).cause.Textual := htextual.lift
  rw [heq] at hlift
  exact hlift

end Formulas

/-! ## Both readers -/

section Agreement

variable {σ ε α : Type} {builder : Builder σ ε α} {text : Bytes} {start : Nat} {state : σ}

theorem parseAt_number (hstart : start ≤ text.length) (s : Session σ ε) :
    Grammar.parseAt builder .number text start s = Parser.number builder (text.drop start) s := by
  rw [Grammar.parseAt, if_pos ⟨Int.natCast_nonneg _, Int.ofNat_le.2 hstart⟩, Int.toNat_natCast]
  rfl

/-- A builder that does not fail gets the longest number. -/
theorem parseAt_longest (hstart : start ≤ text.length) (htotal : ∀ w s, ∃ a s', builder.number w s = (.ok a, s'))
    {v : Bytes} (hfront : v <+: text.drop start) (hv : Number v) :
    ∃ w a state', IsLongestNumber (text.drop start) w ∧ builder.number w state = (.ok a, state') ∧
      Grammar.parseAt builder .number text start ⟨state, none⟩ = (.done (.value a) w.length, ⟨state', none⟩) := by
  have hne := numberLength_ne_zero hfront hv
  have hlongest := isLongestNumber_of_numberLength hne
  obtain ⟨a, state', hcall⟩ := htotal ((text.drop start).take (Parser.numberLength (text.drop start))) state
  refine ⟨_, a, state', hlongest, hcall, ?_⟩
  rw [parseAt_number hstart, Parser.number_of_ne_zero hne, Parser.offer_ok hcall,
    List.length_take_of_le (Cursor.numberLength_le _)]

theorem parseAt_none (hstart : start ≤ text.length) (hnone : ∀ w, w <+: text.drop start → ¬Number w) (s : Session σ ε) :
    Grammar.parseAt builder .number text start s = (.failed ⟨[], .numberExpected⟩ 0, s) := by
  rw [parseAt_number hstart]
  refine Parser.number_of_eq_zero (Classical.byContradiction fun hne => ?_) s
  have hlongest := isLongestNumber_of_numberLength hne
  exact hnone _ hlongest.front hlongest.number

/-- **Scanning and reading agree on numbers.** From any position of the text, scanning succeeds if a number is there, takes
the longest one and gives it to the builder; otherwise it fails at once without a call. Every number is a numeral. It is
read as the magnitude nearest to it, with at most eight hundred digits before the point and eight thousand behind it, or
five in the exponent. So the text is not rejected for a number that cannot be read, and all constants that come of it can
be read. -/
theorem numbers_scanned_and_read (text : Bytes) :
    (∀ {σ ε α : Type} (builder : Builder σ ε α) (start : Nat) (state : σ), start ≤ text.length →
      (∀ w s, ∃ a s', builder.number w s = (.ok a, s')) →
      ((∃ item n s, Grammar.parseAt builder .number text start ⟨state, none⟩ = (.done item n, s)) ↔
        ∃ v, v <+: text.drop start ∧ Number v) ∧
      (∀ v, v <+: text.drop start → Number v →
        ∃ w a state', IsLongestNumber (text.drop start) w ∧ builder.number w state = (.ok a, state') ∧
          Grammar.parseAt builder .number text start ⟨state, none⟩ = (.done (.value a) w.length, ⟨state', none⟩)) ∧
      ((∀ v, v <+: text.drop start → ¬Number v) →
        Grammar.parseAt builder .number text start ⟨state, none⟩ = (.failed ⟨[], .numberExpected⟩ 0, ⟨state, none⟩))) ∧
    (∀ w, Number w → (Numeral.form? w).isSome ∧ ∃ p, Spelled p w) ∧
    (∀ p w, Spelled p w → (p.whole.dropWhile (· == Byte.zero)).length ≤ 800 →
      digitsValue 10 p.power < 100000 ∨ p.fraction.length ≤ 8000 →
      ∃ m, Numeral.read w = .number false m ∧ Magnitude.IsNearest p.toRat m ∧
        (2 ^ 1024 ≤ p.toRat → m = .infinity) ∧ (p.toRat ≤ 1 / 2 ^ 1075 → m = .zero)) ∧
    (∀ w, .number w ∈ callsOf text → Number w) ∧
    (∀ {σ ε α : Type} (builder : Builder σ ε α) (state state' : σ) (position : Nat) (why : Failure ε),
      builder.drive text state = (.error (.malformed position why), state') → ∀ w, why.cause ≠ .malformedNumber w) ∧
    (∀ v ∈ (Components.builder.drive text .new).2.values, v.kind = .constant → (Numeral.form? v.text).isSome) ∧
    ∀ p, compile text = .ok p → ∀ w ∈ p.constants, (Numeral.form? w).isSome := by
  refine ⟨fun builder start state hstart htotal => ⟨⟨?_, ?_⟩, fun v => parseAt_longest hstart htotal,
    fun hnone => parseAt_none hstart hnone _⟩, fun w hw => ⟨form?_number hw, exists_spelled hw⟩,
    fun p w h hwhole hpower => ?_, fun w => number_of_mem_callsOf,
    fun builder state state' position why h w => ne_malformedNumber_of_drive h, fun v => form?_of_mem_drive,
    fun p hp w => form?_of_mem_compile hp⟩
  · rintro ⟨item, n, s, hdone⟩
    refine Classical.byContradiction fun hnone => ?_
    rw [parseAt_none hstart fun v hfront hv => hnone ⟨v, hfront, hv⟩] at hdone
    cases hdone
  · rintro ⟨v, hfront, hv⟩
    obtain ⟨w, a, state', -, -, hdone⟩ := parseAt_longest hstart htotal hfront hv
    exact ⟨_, _, _, hdone⟩
  · obtain ⟨m, hread, hnearest⟩ := h.read_isNearest_of_length_le hwhole hpower false
    refine ⟨m, hread, hnearest, fun hlarge => ?_, fun hsmall => ?_⟩
    · exact hnearest.unique (Magnitude.isNearest_infinity (by rwa [Magnitude.toRat_infinity]))
    · refine Classical.byContradiction fun hne => ?_
      have hhalf := hnearest.gt_half (fun hzero => hne (Magnitude.isZero_iff.1 hzero)) (scaled_nonneg _ _)
      exact absurd hhalf (not_lt.2 hsmall)

/-- A number with a mark behind it that has no digits. -/
def danglingExponent : Bytes := bytes "x2.5e+y"

/-- A number above all finite values. -/
def overflowingParts : Parts := ⟨bytes "1", [], false, bytes "400"⟩

theorem spelled_overflowing : Spelled overflowingParts (bytes "1e400") := by
  have hpower : Digits overflowingParts.power := List.all_eq_true.1 (by decide)
  exact .mk (.whole (List.all_eq_true.1 (by decide)) (by decide) rfl) (.present (.inl rfl) (.inl rfl) hpower (by decide))

theorem le_toRat_overflowing : 2 ^ 1024 ≤ overflowingParts.toRat := by
  have hexponent : overflowingParts.exponent - overflowingParts.fraction.length = (400 : Nat) := by decide
  have hcoefficient : overflowingParts.coefficient = 1 := by decide
  rw [Parts.toRat, hexponent, hcoefficient, Nat.cast_one, one_mul, zpow_natCast]
  exact Magnitude.two_pow_le_ten_pow

theorem numbers_scanned_and_read_danglingExponent :
    Parser.numberLength (danglingExponent.drop 1) = 3 ∧
      (∃ w a state, IsLongestNumber (danglingExponent.drop 1) w ∧
        (Transcript.builder none).number w #[] = (.ok a, state) ∧
        Grammar.parseAt (Transcript.builder none) .number danglingExponent (1 : Nat) ⟨#[], none⟩ =
          (.done (.value a) w.length, ⟨state, none⟩)) ∧
      Numeral.read (bytes "1e400") = .number false .infinity := by
  refine ⟨by decide, ?_, ?_⟩
  · have hnumber := isLongestNumber_of_numberLength (show Parser.numberLength (danglingExponent.drop 1) ≠ 0 by decide)
    exact ((numbers_scanned_and_read danglingExponent).1 (Transcript.builder none) 1 #[] (by decide)
      fun w s => ⟨_, _, rfl⟩).2.1 _ hnumber.front hnumber.number
  · obtain ⟨m, hread, -, hlarge, -⟩ :=
      (numbers_scanned_and_read danglingExponent).2.2.1 _ _ spelled_overflowing (by decide) (.inr (by decide))
    rw [hread, hlarge le_toRat_overflowing]

/-- **An overlong number is read as a value that is not the nearest one**, though it is scanned as a number. -/
theorem overlongNumeral_misread :
    Number overlongNumeral ∧ Spelled overlongParts overlongNumeral ∧
      ∀ negative m, Numeral.read overlongNumeral = .number negative m → ¬Magnitude.IsNearest overlongParts.toRat m := by
  refine ⟨spelled_overlongNumeral.number, spelled_overlongNumeral, ?_⟩
  intro negative m hread
  exact not_isNearest_overlongNumeral hread

end Agreement

end ComplexFormula
