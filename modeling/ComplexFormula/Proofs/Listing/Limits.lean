import ComplexFormula.Proofs.Listing.Literals
import Mathlib

/-!
# Literals within the limits of Go

Go takes an integer literal below `2^512`, and a literal with a point or an exponent whose value is finite and not zero
(`Accepted`). Literals that are written for computed values are all accepted (`accepted_of_written`). Most numbers of a
formula are printed as they stand, and two sorts of them are not accepted: integers from the limit on that still have a
finite value (`Oversized`), and overlong numbers that are read as another value than they have (`Misread`).

There are no other exceptions, and a constant of these sorts is always printed (`literals_within_limits`).
-/

namespace ComplexFormula

open Lexeme

namespace Lexeme

variable {p p' : Parts} {w : Bytes}

theorem Spelled.unique (h : Spelled p w) (h' : Spelled p' w) : p = p' := by
  have hread := Source.literal?_append h Source.delimited_nil
  rw [Source.literal?_append h' Source.delimited_nil] at hread
  exact (congrArg (fun o => o.1.parts) (Option.some.inj hread)).symm

/-- Only digits beyond the first eight hundred before the point can fail to be counted. -/
theorem Parts.uncounted_le (p : Parts) : p.uncounted ≤ p.whole.length - 800 := by
  have hlength : ((p.whole.filter (· != Byte.underscore)).dropWhile (· == Byte.zero)).length ≤ p.whole.length :=
    le_trans (List.dropWhile_sublist _).length_le (List.length_filter_le _ _)
  unfold Parts.uncounted Numeral.uncounted
  dsimp only
  split
  · exact Nat.zero_le _
  · split
    · exact Nat.zero_le _
    · exact Nat.sub_le_sub_right hlength 800

end Lexeme

namespace Source

variable {p p' : Parts} {w text : Bytes} {m : Magnitude} {b : UInt8}

/-! ## Kinds of literals -/

section Kinds

/-- Digits without a zero in front, unless it is the only one. -/
structure IsInteger (w : Bytes) : Prop where
  digits : Digits w
  nonempty : w ≠ []
  head : w.head? = some Byte.zero → w = [Byte.zero]

/-- A number that has a point or an exponent. -/
structure IsFloating (p : Parts) (w : Bytes) : Prop where
  spelled : Spelled p w
  mixed : ¬Digits w

/-- Integer constants have to stay below this. -/
def integerLimit : Nat := 2 ^ 512

/-- A literal that Go takes. -/
inductive Accepted : Bytes → Prop
  | integer {w : Bytes} (h : IsInteger w) (hlimit : digitsValue 10 w < integerLimit) : Accepted w
  | floating {p : Parts} {w : Bytes} {m : Magnitude} (h : IsFloating p w) (hnearest : Magnitude.IsNearest p.toRat m)
      (hinfinite : ¬m.isInfinite) (hzero : ¬m.isZero) : Accepted w

/-- An integer that has a finite value but is not below the limit. -/
def Oversized (w : Bytes) : Prop :=
  IsInteger w ∧ integerLimit ≤ digitsValue 10 w ∧ ∃ m, Magnitude.IsNearest (digitsValue 10 w) m ∧ ¬m.isInfinite

/-- A number that is read as a finite value other than zero, though the nearest one to it is infinity or zero. -/
def Misread (w : Bytes) : Prop :=
  800 < w.length ∧ ∃ p m m', IsFloating p w ∧ Numeral.read w = .number false m ∧ ¬m.isInfinite ∧ ¬m.isZero ∧
    Magnitude.IsNearest p.toRat m' ∧ (m'.isInfinite ∨ m'.isZero)

end Kinds

/-! ## Integers -/

section Integers

def integerParts (w : Bytes) : Parts := ⟨w, [], false, []⟩

theorem IsInteger.spelled (h : IsInteger w) : Spelled (integerParts w) w := by
  have hspelled := Spelled.mk (p := integerParts w) (.whole h.digits h.nonempty rfl) (.absent rfl rfl)
  rwa [List.append_nil] at hspelled

theorem coefficient_integerParts (w : Bytes) : (integerParts w).coefficient = digitsValue 10 w := by
  rw [Parts.coefficient, integerParts, List.append_nil]

theorem toRat_integerParts (w : Bytes) : (integerParts w).toRat = digitsValue 10 w := by
  rw [Parts.toRat, coefficient_integerParts]
  simp [Parts.exponent, integerParts, digitsValue]

theorem IsInteger.trimmed (h : IsInteger w) (hlength : 1 < w.length) : Numeral.Trimmed w := by
  refine ⟨h.digits, ?_⟩
  obtain ⟨d, rest, rfl⟩ := List.exists_cons_of_ne_nil h.nonempty
  refine ⟨d, rest, rfl, ?_⟩
  rintro rfl
  rw [h.head rfl] at hlength
  exact absurd hlength (by decide)

theorem isInteger_digit (hb : Byte.isDigit b) : IsInteger [b] where
  digits := fun c hc => List.mem_singleton.1 hc ▸ hb
  nonempty := List.cons_ne_nil _ _
  head := fun hhead => by rw [Option.some.inj hhead]

theorem lt_integerLimit (hw : Digits w) (hlength : w.length ≤ 6) : digitsValue 10 w < integerLimit := by
  calc digitsValue 10 w < 10 ^ w.length := digitsValue_lt hw
    _ ≤ 10 ^ 6 := Nat.pow_le_pow_right (by norm_num) hlength
    _ ≤ 2 ^ 20 := by norm_num
    _ ≤ integerLimit := by
      rw [integerLimit]
      exact pow_le_pow_right₀ one_le_two (by norm_num)

theorem accepted_digit (hb : Byte.isDigit b) : Accepted [b] :=
  .integer (isInteger_digit hb) (lt_integerLimit (isInteger_digit hb).digits (by simp))

/-- **Every integer is read as the magnitude nearest to it.** -/
theorem IsInteger.read_isNearest (h : IsInteger w) :
    ∃ m, Numeral.read w = .number false m ∧ Magnitude.IsNearest (digitsValue 10 w) m := by
  rw [← toRat_integerParts]
  by_cases hlength : w.length ≤ 800
  · exact h.spelled.read_isNearest ⟨rfl, Parts.uncounted_eq_zero hlength⟩ false
  · -- with so many digits the value is infinite, even if only eight hundred of them are counted as places
    have hlarge : ∀ {k : Int} {m}, 800 - (w.length : Int) ≤ k →
        Magnitude.IsNearest (digitsValue 10 w * 10 ^ k) m → m = .infinity := by
      intro k m hk hm
      have hlow := ((h.trimmed (by omega)).le_laidOut (w.length - 1 + k)).1
      rw [Numeral.laidOut, show (w.length - 1 + k + 1 - w.length : Int) = k by ring] at hlow
      exact hm.eq_infinity hlow (by omega)
    have huncounted : (integerParts w).uncounted ≤ w.length - 800 := (integerParts w).uncounted_le
    have hexponent : (integerParts w).readExponent - (integerParts w).fraction.length - (integerParts w).uncounted =
        -((integerParts w).uncounted : Int) := zero_sub _
    have hread := Magnitude.ofScaled_isNearest (show 0 < 10 by norm_num) (integerParts w).coefficient
      (-((integerParts w).uncounted : Int))
    rw [Nat.cast_ofNat, coefficient_integerParts] at hread
    obtain ⟨m, hm⟩ := Magnitude.exists_isNearest (scaled_nonneg (digitsValue 10 w) 0)
    refine ⟨_, h.spelled.read false, ?_⟩
    rw [hexponent, coefficient_integerParts, hlarge (by omega) hread, toRat_integerParts, ← hlarge (by omega) hm]
    rwa [zpow_zero, mul_one] at hm

end Integers

/-! ## Written literals -/

section Written

theorem length_positional_le {ds : Bytes} {exponent : Int} (hexponent : exponent < 6)
    (h : Digits (Numeral.positional ds exponent)) : (Numeral.positional ds exponent).length ≤ 6 := by
  unfold Numeral.positional at h ⊢
  split at h
  · exact absurd (h Byte.point (by simp [show bytes "0." = [Byte.zero, Byte.point] from rfl])) (by decide)
  · rename_i hnonneg
    rw [if_neg hnonneg]
    dsimp only at h ⊢
    split at h
    · rename_i hfraction
      rw [if_pos hfraction]
      simp only [List.append_nil, List.length_append, List.length_take, List.length_replicate]
      omega
    · exact absurd (h Byte.point (by simp)) (by decide)

/-- Digits alone are written for small integers only. -/
theorem length_layout_le (h : Digits (Numeral.layout m)) : (Numeral.layout m).length ≤ 6 := by
  dsimp only [Numeral.layout] at h ⊢
  split at h
  · exact absurd (h Byte.letterE (by simp [Numeral.scientific])) (by decide)
  · rename_i hrange
    rw [if_neg hrange]
    exact length_positional_le (by omega) h

/-- **What is written for a value is accepted.** -/
theorem accepted_layout (hinfinite : ¬m.isInfinite) (hzero : ¬m.isZero) : Accepted (Numeral.layout m) := by
  obtain ⟨p, hspelled, -, hvalue⟩ := Numeral.layout_spelled hinfinite hzero
  by_cases hdigits : Digits (Numeral.layout m)
  · obtain ⟨b, tail, hlayout, -⟩ := head_of_number hspelled.number
    have hlimit := lt_integerLimit hdigits (length_layout_le hdigits)
    refine .integer ⟨hdigits, hlayout ▸ List.cons_ne_nil _ _, fun hhead => ?_⟩ hlimit
    exact absurd (hdigits _ (Numeral.layout_head hzero hhead)) (by decide)
  · have hnearest := Magnitude.shortest_isNearest m
    rw [← hvalue] at hnearest
    exact .floating ⟨hspelled, hdigits⟩ hnearest hinfinite hzero

end Written

/-! ## Numbers of formulas -/

section Numbers

theorem isInteger_of_digits (h : Number w) (hdigits : Digits w) (hoctal : ¬IsOctal w) : IsInteger w := by
  obtain ⟨b, tail, rfl, -⟩ := head_of_number h
  refine ⟨hdigits, List.cons_ne_nil _ _, fun hhead => ?_⟩
  obtain rfl := Option.some.inj hhead
  cases tail with
  | nil => rfl
  | cons c tail => exact absurd ⟨by simp, rfl, List.all_eq_true.2 hdigits⟩ hoctal

/-- **A number that is printed as it stands** is accepted, or too large for an integer, or misread. -/
theorem number_cases (h : Number w) (hoctal : ¬IsOctal w) (hread : Numeral.read w = .number false m)
    (hinfinite : ¬m.isInfinite) (hzero : ¬m.isZero) : Accepted w ∨ Oversized w ∨ Misread w := by
  by_cases hdigits : Digits w
  · have hinteger := isInteger_of_digits h hdigits hoctal
    obtain ⟨m', hread', hnearest⟩ := hinteger.read_isNearest
    obtain ⟨-, rfl⟩ := Binary64.number.inj (hread'.symm.trans hread)
    rcases Nat.lt_or_ge (digitsValue 10 w) integerLimit with hlimit | hlimit
    · exact .inl (.integer hinteger hlimit)
    · exact .inr (.inl ⟨hinteger, hlimit, m', hnearest, hinfinite⟩)
  · obtain ⟨p, hspelled⟩ := exists_spelled h
    obtain ⟨m', hnearest⟩ := Magnitude.exists_isNearest (scaled_nonneg p.coefficient (p.exponent - p.fraction.length))
    by_cases hextreme : m'.isInfinite ∨ m'.isZero
    · refine .inr (.inr ⟨?_, p, m, m', ⟨hspelled, hdigits⟩, hread, hinfinite, hzero, hnearest, hextreme⟩)
      -- in a short number all digits count, so that it would be read as the nearest value
      refine Nat.lt_of_not_le fun hlength => ?_
      have hread' : Numeral.read (signOf false ++ w) = .number false m := hread
      obtain ⟨m'', hread'', hnearest'⟩ :=
        hspelled.read_isNearest (hspelled.counted_of_length_le hlength hread' hinfinite hzero) false
      obtain ⟨-, rfl⟩ := Binary64.number.inj (hread'.symm.trans hread'')
      rw [hnearest.unique hnearest'] at hextreme
      exact hextreme.elim hinfinite hzero
    · rw [not_or] at hextreme
      exact .inl (.floating ⟨hspelled, hdigits⟩ hnearest hextreme.1 hextreme.2)

theorem Oversized.not_accepted (h : Oversized w) : ¬Accepted w := by
  obtain ⟨hinteger, hlimit, -⟩ := h
  rintro (⟨-, hbelow⟩ | ⟨hfloating, -⟩)
  · exact absurd hbelow hlimit.not_gt
  · exact hfloating.mixed hinteger.digits

theorem Misread.not_accepted (h : Misread w) : ¬Accepted w := by
  obtain ⟨-, p, m, m', hfloating, -, -, -, hnearest, hextreme⟩ := h
  rintro (⟨hinteger, -⟩ | ⟨hfloating', hnearest', hinfinite, hzero⟩)
  · exact hfloating.mixed hinteger.digits
  · obtain rfl := hfloating.spelled.unique hfloating'.spelled
    rw [hnearest.unique hnearest'] at hextreme
    exact hextreme.elim hinfinite hzero

/-- A number from one on does not round to zero. -/
theorem not_isZero_of_one_le {q : Rat} (h : Magnitude.IsNearest q m) (hq : 1 ≤ q) : ¬m.isZero := by
  have hindex : 1 ≤ infinityIndex := by decide
  have hsmall : (⟨1, hindex⟩ : Magnitude).toRat ≤ 1 := by
    rw [Magnitude.toRat, Magnitude.units, unitsAt_of_le (by norm_num), Nat.cast_one]
    exact div_le_one_of_le₀ (one_le_pow₀ one_le_two) (by positivity)
  intro hzero
  have hle := (Magnitude.isNearest_toRat _).mono h (hsmall.trans hq)
  rw [Magnitude.isZero_iff.1 hzero] at hle
  exact absurd hle (Nat.not_succ_le_zero 0)

/-- A number that rounds to infinity is at least half of what infinity stands for. -/
theorem le_of_isNearest_infinity {q : Rat} (h : Magnitude.IsNearest q .infinity) (hq : 0 ≤ q) : 2 ^ 1024 ≤ 2 * q := by
  have hle := h.le .zero
  rw [Magnitude.toRat_infinity, Magnitude.toRat_zero, sub_zero, abs_of_nonneg hq] at hle
  have hdistance := neg_le_of_abs_le hle
  generalize (2 : Rat) ^ 1024 = top at hdistance
  linarith

theorem Oversized.read (h : Oversized w) :
    Number w ∧ ¬IsOctal w ∧ ∃ m, Numeral.read w = .number false m ∧ ¬m.isInfinite ∧ ¬m.isZero := by
  obtain ⟨hinteger, hlimit, m, hnearest, hinfinite⟩ := h
  obtain ⟨m', hread, hnearest'⟩ := hinteger.read_isNearest
  obtain rfl := hnearest.unique hnearest'
  have hone : 1 ≤ digitsValue 10 w := le_trans Nat.one_le_two_pow hlimit
  refine ⟨hinteger.spelled.number, ?_, m, hread, hinfinite, not_isZero_of_one_le hnearest (Nat.one_le_cast.2 hone)⟩
  rintro ⟨hlength, hhead, -⟩
  rw [hinteger.head hhead] at hlength
  exact absurd hlength (by decide)

theorem Misread.read (h : Misread w) :
    Number w ∧ ¬IsOctal w ∧ ∃ m, Numeral.read w = .number false m ∧ ¬m.isInfinite ∧ ¬m.isZero := by
  obtain ⟨-, p, m, m', hfloating, hread, hinfinite, hzero, -⟩ := h
  refine ⟨hfloating.spelled.number, fun hoctal => ?_, m, hread, hinfinite, hzero⟩
  exact hfloating.mixed (List.all_eq_true.1 hoctal.2.2)

end Numbers

/-! ## Constants -/

section Constants

variable {divisor : Bool} {v : Binary64}

theorem mem_literals_cases (hw : w ∈ (ConstantForm.of text divisor).literals) :
    w = [Byte.zero] ∨ w = [Byte.one] ∨ ∃ negative m, Numeral.read text = .number negative m ∧ ¬m.isInfinite ∧ ¬m.isZero ∧
      (w = Numeral.layout m ∨ w = unsigned text ∧ ¬IsOctal text) := by
  cases hform : ConstantForm.of text divisor with
  | nan =>
    rw [hform] at hw
    cases hw
  | infinity negative =>
    rw [hform] at hw
    exact .inr (.inl (List.mem_singleton.1 hw))
  | signedZero negative =>
    rw [hform] at hw
    rcases List.mem_cons.1 hw with hw | hw
    · exact .inl hw
    · exact .inr (.inl (List.mem_singleton.1 hw))
  | literal u =>
    rw [hform] at hw
    obtain rfl := List.mem_singleton.1 hw
    rcases literal_cases hform with rfl | ⟨negative, m, hread, hinfinite, hzero, rfl | ⟨rfl, hoctal⟩⟩
    · exact .inl rfl
    · obtain ⟨p, hspelled, -⟩ := Numeral.layout_spelled hinfinite hzero
      rw [Numeral.write_eq hinfinite hzero, unsigned_number hspelled.number]
      exact .inr (.inr ⟨negative, m, hread, hinfinite, hzero, .inl rfl⟩)
    · exact .inr (.inr ⟨negative, m, hread, hinfinite, hzero, .inr ⟨rfl, hoctal⟩⟩)

/-- **Computed constants are printed as accepted literals.** -/
theorem accepted_of_written (hw : w ∈ (ConstantForm.of (Numeral.write v) divisor).literals) : Accepted w := by
  rcases mem_literals_cases hw with rfl | rfl | ⟨negative, m, hread, hinfinite, hzero, rfl | ⟨rfl, -⟩⟩
  · exact accepted_digit rfl
  · exact accepted_digit rfl
  · exact accepted_layout hinfinite hzero
  · obtain ⟨p, hspelled, -⟩ := Numeral.layout_spelled hinfinite hzero
    rw [Numeral.read_write] at hread
    rw [hread, Numeral.write_eq hinfinite hzero, unsigned_number hspelled.number]
    exact accepted_layout hinfinite hzero

/-- Numbers of the formula are, unless they are printed as they stand. -/
theorem accepted_of_number (h : Number text) (hw : w ∈ (ConstantForm.of text divisor).literals) :
    Accepted w ∨ w = text ∧ (Oversized w ∨ Misread w) := by
  rcases mem_literals_cases hw with rfl | rfl | ⟨negative, m, hread, hinfinite, hzero, rfl | ⟨rfl, hoctal⟩⟩
  · exact .inl (accepted_digit rfl)
  · exact .inl (accepted_digit rfl)
  · exact .inl (accepted_layout hinfinite hzero)
  · obtain ⟨p, hspelled⟩ := exists_spelled h
    have hsign := hspelled.read false
    rw [show signOf false ++ text = text from rfl, hread] at hsign
    obtain ⟨rfl, -⟩ := Binary64.number.inj hsign
    rw [show unsigned text = text from unsigned_number h false]
    exact (number_cases h hoctal hread hinfinite hzero).imp id fun hrefused => ⟨rfl, hrefused⟩

/-- The others are printed as they stand. -/
theorem literals_of_refused (h : Oversized w ∨ Misread w) (divisor : Bool) :
    (ConstantForm.of w divisor).literals = [w] := by
  obtain ⟨hnumber, hoctal, m, hread, hinfinite, hzero⟩ := h.elim Oversized.read Misread.read
  have hform : ConstantForm.of w divisor = .literal w := by
    unfold ConstantForm.of
    rw [hread]
    exact (if_neg hinfinite).trans ((if_neg hzero).trans (if_neg hoctal))
  rw [hform, ConstantForm.literals, show unsigned w = w from unsigned_number hnumber false]

end Constants

end Source

/-! ## Programs -/

section Programs

open Source

variable {w text : Bytes} {p : Program}

theorem Expr.exists_of_mem_literals {e : Expr} {divisor : Bool} (hw : w ∈ e.literals divisor) :
    ∃ text ∈ e.constants, ∃ divisor, w ∈ (ConstantForm.of text divisor).literals := by
  induction e generalizing divisor with
  | missing | arg | temp => cases hw
  | const text => exact ⟨text, List.mem_singleton.2 rfl, divisor, hw⟩
  | binary b l r ihl ihr =>
    rcases List.mem_append.1 hw with hw | hw
    · obtain ⟨text, htext, hform⟩ := ihl hw
      exact ⟨text, List.mem_append_left _ htext, hform⟩
    · obtain ⟨text, htext, hform⟩ := ihr hw
      exact ⟨text, List.mem_append_right _ htext, hform⟩

theorem Expr.mem_literals {e : Expr} (hform : ∀ divisor, w ∈ (ConstantForm.of text divisor).literals)
    (htext : text ∈ e.constants) (divisor : Bool) : w ∈ e.literals divisor := by
  induction e generalizing divisor with
  | missing | arg | temp => cases htext
  | const text' => exact List.mem_singleton.1 htext ▸ hform divisor
  | binary b l r ihl ihr =>
    rcases List.mem_append.1 htext with htext | htext
    · exact List.mem_append_left _ (ihl htext false)
    · exact List.mem_append_right _ (ihr htext _)

theorem Program.exists_of_mem_literals (hw : w ∈ p.literals) :
    ∃ text ∈ p.constants, ∃ divisor, w ∈ (ConstantForm.of text divisor).literals := by
  rcases List.mem_append.1 hw with hw | hw
  · obtain ⟨a, ha, hw⟩ := List.mem_flatMap.1 hw
    obtain ⟨text, htext, hform⟩ := Expr.exists_of_mem_literals hw
    exact ⟨text, List.mem_append_left _ (List.mem_flatMap.2 ⟨a, ha, htext⟩), hform⟩
  · rcases List.mem_append.1 hw with hw | hw
    · obtain ⟨text, htext, hform⟩ := Expr.exists_of_mem_literals hw
      exact ⟨text, List.mem_append_right _ (List.mem_append_left _ htext), hform⟩
    · obtain ⟨text, htext, hform⟩ := Expr.exists_of_mem_literals hw
      exact ⟨text, List.mem_append_right _ (List.mem_append_right _ htext), hform⟩

theorem Program.mem_literals (hform : ∀ divisor, w ∈ (ConstantForm.of text divisor).literals)
    (htext : text ∈ p.constants) : w ∈ p.literals := by
  rcases List.mem_append.1 htext with htext | htext
  · obtain ⟨a, ha, htext⟩ := List.mem_flatMap.1 htext
    exact List.mem_append_left _ (List.mem_flatMap.2 ⟨a, ha, Expr.mem_literals hform htext false⟩)
  · rcases List.mem_append.1 htext with htext | htext
    · exact List.mem_append_right _ (List.mem_append_left _ (Expr.mem_literals hform htext false))
    · exact List.mem_append_right _ (List.mem_append_right _ (Expr.mem_literals hform htext false))

/-- Numbers that are not accepted are printed all the same. -/
theorem Program.mem_literals_of_refused (h : Oversized w ∨ Misread w) (hw : w ∈ p.constants) : w ∈ p.literals := by
  refine Program.mem_literals (fun divisor => ?_) hw
  rw [literals_of_refused h]
  exact List.mem_singleton.2 rfl

/-- A formula's function is printed with the literals of its program. -/
theorem Formula.exists_body {x : Formula} (hx : ∀ text ∈ x.numbers, Number text) (h : x.compile = .ok p)
    (onto name : Bytes) : ∃ body, p.appendSource? onto name = some (onto ++ (Listing.header name ++ body)) ∧
      literals body = p.literals := by
  obtain ⟨hassigns, hre, him⟩ := Formula.printable_of_compile hx h
  obtain ⟨needed, hsource⟩ := (Formula.usable_of_compile h).2.appendSource?_eq onto name
  rw [functionSource_eq] at hsource
  exact ⟨_, hsource, literals_body hassigns hre him needed⟩

/-- **Literals are within the limits**, apart from two sorts of numbers. Every literal in the body of the function that
a text is compiled to is accepted, unless it is a number of the formula that is oversized or misread. So the only
exceptions are integers from `2^512` on and numbers of more than eight hundred bytes. All constants of these sorts are
exceptions. -/
theorem literals_within_limits (text : Bytes) (p : Program) (h : compile text = .ok p) (onto name : Bytes) :
    ∃ x body, Formula.parse text = .ok x ∧ p.appendSource? onto name = some (onto ++ (Listing.header name ++ body)) ∧
      (∀ w ∈ literals body, Accepted w ∨ w ∈ x.numbers ∧ (Oversized w ∨ Misread w)) ∧
      ∀ w ∈ p.constants, Oversized w ∨ Misread w → w ∈ literals body ∧ ¬Accepted w := by
  obtain ⟨x, hparse, hx⟩ := exists_parse_of_compile h
  have hnumbers := (Formula.grammatical_of_parse hparse).number_of_mem
  obtain ⟨body, hsource, hliterals⟩ := Formula.exists_body hnumbers hx onto name
  refine ⟨x, body, hparse, hsource, fun w hw => ?_, fun w hw hrefused => ?_⟩
  · rw [hliterals] at hw
    obtain ⟨text', htext, divisor, hform⟩ := Program.exists_of_mem_literals hw
    rcases Formula.mem_constants_of_compile hx htext with hnumber | ⟨v, rfl⟩
    · refine (accepted_of_number (hnumbers text' hnumber) hform).imp id ?_
      rintro ⟨rfl, hrefused⟩
      exact ⟨hnumber, hrefused⟩
    · exact .inl (accepted_of_written hform)
  · rw [hliterals]
    exact ⟨Program.mem_literals_of_refused hrefused hw, hrefused.elim Oversized.not_accepted Misread.not_accepted⟩

/-! ### Numbers that are accepted, and one that is not -/

/-- A number that looks octal, one that overflows, a fraction and a zero that divides. -/
def mixedConstants : Bytes := bytes "010*z-1e400+.5/0"

theorem length_mixedConstants {x : Formula} (h : Formula.parse mixedConstants = .ok x) (hw : w ∈ x.numbers) :
    w.length ≤ 6 := by
  have hlengths : (Formula.parse mixedConstants).toOption.map (fun x => x.numbers.map List.length) =
      some [3, 5, 2, 1] := by cbv
  rw [h] at hlengths
  have hlength : w.length ∈ x.numbers.map List.length := List.mem_map_of_mem hw
  rw [show x.numbers.map List.length = [3, 5, 2, 1] from Option.some.inj hlengths] at hlength
  exact (show ∀ n ∈ [3, 5, 2, 1], n ≤ 6 by decide) _ hlength

theorem exists_compile_mixedConstants : ∃ p, compile mixedConstants = .ok p := by
  have hsome : (compile mixedConstants).toOption.isSome := by cbv
  cases hcompile : compile mixedConstants with
  | error why =>
    rw [hcompile] at hsome
    cases hsome
  | ok p => exact ⟨p, rfl⟩

theorem not_refused_of_length_le (h : w.length ≤ 6) : ¬(Oversized w ∨ Misread w) := by
  rintro (⟨hinteger, hlimit, -⟩ | ⟨hlong, -⟩)
  · exact absurd (lt_integerLimit hinteger.digits h) hlimit.not_gt
  · omega

def borderParts : Parts := ⟨bytes "1797693134862315807938" ++ List.replicate 779 Byte.zero, [], true, bytes "492"⟩

/-- A number a little above the middle of the largest finite value and infinity, with all its digits before the point. -/
def borderNumeral : Bytes := borderParts.whole ++ bytes "e-492"

theorem spelled_borderNumeral : Spelled borderParts borderNumeral := by
  have hwhole : Digits borderParts.whole := Digits.append (List.all_eq_true.1 rfl) (Numeral.digits_replicate 779)
  have hpower : Digits borderParts.power := List.all_eq_true.1 rfl
  exact .mk (.whole hwhole (List.cons_ne_nil _ _) rfl) (.present (.inl rfl) (.inl rfl) hpower (List.cons_ne_nil _ _))

theorem misread_borderNumeral : Misread borderNumeral := by
  have hmark : Byte.letterE ∈ borderNumeral := List.mem_append_right _ List.mem_cons_self
  have hmixed : ¬Digits borderNumeral := fun h => absurd (h Byte.letterE hmark) (by decide)
  have hnearest := Magnitude.ofScaled_isNearest (show 0 < 10 by norm_num) borderParts.coefficient
    (borderParts.exponent - borderParts.fraction.length)
  rw [Nat.cast_ofNat] at hnearest
  refine ⟨?_, borderParts, _, _, ⟨spelled_borderNumeral, hmixed⟩, spelled_borderNumeral.read false, ?_, ?_,
    hnearest, .inl ?_⟩
  · rw [borderNumeral, borderParts, List.length_append, List.length_append, List.length_replicate]
    decide
  · decide +kernel
  · decide +kernel
  · decide +kernel

theorem literals_within_limits_mixedConstants :
    (∃ p body, compile mixedConstants = .ok p ∧
      p.appendSource? [] (bytes "f") = some ([] ++ (Listing.header (bytes "f") ++ body)) ∧
      ∀ w ∈ literals body, Accepted w) ∧
    ∃ p body, compile borderNumeral = .ok p ∧
      p.appendSource? [] (bytes "f") = some ([] ++ (Listing.header (bytes "f") ++ body)) ∧
      borderNumeral ∈ literals body ∧ ¬Accepted borderNumeral := by
  constructor
  · obtain ⟨p, hp⟩ := exists_compile_mixedConstants
    obtain ⟨x, body, hparse, hsource, haccepted, -⟩ := literals_within_limits mixedConstants p hp [] (bytes "f")
    refine ⟨p, body, hp, hsource, fun w hw => (haccepted w hw).resolve_right ?_⟩
    rintro ⟨hnumber, hrefused⟩
    exact not_refused_of_length_le (length_mixedConstants hparse hnumber) hrefused
  · have hp := compile_of_number spelled_borderNumeral.number
    obtain ⟨x, body, -, hsource, -, hrefused⟩ := literals_within_limits borderNumeral _ hp [] (bytes "f")
    exact ⟨_, body, hp, hsource, hrefused borderNumeral List.mem_cons_self (.inr misread_borderNumeral)⟩

/-! ### An integer above the limit -/

/-- The power `10^155`. -/
def hugeInteger : Bytes := Byte.one :: List.replicate 155 Byte.zero

theorem isInteger_hugeInteger : IsInteger hugeInteger where
  digits := List.forall_mem_cons.2 ⟨rfl, Numeral.digits_replicate 155⟩
  nonempty := List.cons_ne_nil _ _
  head := fun hhead => absurd hhead (by decide)

theorem digitsValue_hugeInteger : digitsValue 10 hugeInteger = 10 ^ 155 := by
  rw [hugeInteger, digitsValue_cons, digitsValue_replicate, List.length_replicate]
  rfl

theorem oversized_hugeInteger : Oversized hugeInteger := by
  obtain ⟨m, -, hnearest⟩ := isInteger_hugeInteger.read_isNearest
  refine ⟨isInteger_hugeInteger, ?_, m, hnearest, fun hinfinite => ?_⟩
  · rw [digitsValue_hugeInteger]
    calc integerLimit = 2 ^ 256 * 2 ^ 256 := by rw [integerLimit, ← pow_add]
      _ ≤ 10 ^ 155 := by norm_num
  · rw [digitsValue_hugeInteger, Magnitude.isInfinite_iff.1 hinfinite] at hnearest
    refine absurd (le_of_isNearest_infinity hnearest (Nat.cast_nonneg _)) (not_le_of_gt ?_)
    rw [Nat.cast_pow, Nat.cast_ofNat]
    calc (2 * 10 ^ 155 : Rat) ≤ 2 ^ 1 * (2 ^ 4) ^ 155 := by
          rw [pow_one]
          gcongr
          norm_num
      _ = 2 ^ 621 := by rw [← pow_mul, ← pow_add]
      _ < 2 ^ 1024 := pow_lt_pow_right₀ one_lt_two (by norm_num)

/-- **A large integer is printed as it stands**, as an integer literal that is not below the limit. -/
theorem hugeInteger_exceeds_limit :
    ∃ p body, compile hugeInteger = .ok p ∧
      p.appendSource? [] (bytes "f") = some ([] ++ (Listing.header (bytes "f") ++ body)) ∧ hugeInteger ∈ literals body ∧
      IsInteger hugeInteger ∧ 2 ^ 512 ≤ digitsValue 10 hugeInteger ∧ ¬Accepted hugeInteger := by
  have hp := compile_of_number isInteger_hugeInteger.spelled.number
  obtain ⟨x, hparse, hx⟩ := exists_parse_of_compile hp
  obtain ⟨body, hsource, hliterals⟩ :=
    Formula.exists_body (Formula.grammatical_of_parse hparse).number_of_mem hx [] (bytes "f")
  refine ⟨_, body, hp, hsource, ?_, isInteger_hugeInteger, oversized_hugeInteger.2.1,
    oversized_hugeInteger.not_accepted⟩
  rw [hliterals]
  exact Program.mem_literals_of_refused (.inl oversized_hugeInteger) List.mem_cons_self

end Programs

end ComplexFormula
