import ComplexFormula.Proofs.Listing.Phrases
import ComplexFormula.Proofs.Numeral.RoundTrip

/-!
# Constants in listings

Whatever form a constant is printed in, it is a factor that stands for the value of the constant, and a divisor is never a
literal zero (`isFactor_constant`). This holds of the texts that compilation can meet: numbers of the formula, and what was
written for computed values (`Legible`).

There is one exception. A literal of more than eight hundred bytes is printed as it stands, and the value that it has as a
constant may leave out digits that count for a reader of the listing (`Overlong`).
-/

namespace ComplexFormula

open Lexeme

namespace Source

variable {p : Parts} {text : Bytes} {m : Magnitude} {q : Rat} {negative : Bool}

/-! ## Constants -/

section Constants

/-- A literal that is not read with all its digits. -/
def Overlong (text : Bytes) (q : Rat) : Prop := 800 < text.length ∧ ∃ p, Spelled p text ∧ ¬p.Counted ∧ q = p.toRat

/-- What a constant is printed as has its value, unless it is an overlong literal. -/
def Retains (text : Bytes) (c : Constant) : Prop :=
  c.Denotes (Numeral.read text) ∨ ∃ q, c = .literal q ∧ Overlong text q

/-- The texts of constants: numbers, and what is written for values. -/
def Legible (text : Bytes) : Prop := Number text ∨ ∃ v, text = Numeral.write v

/-- A literal is octal if it begins with a zero and goes on with digits only. -/
def IsOctal (text : Bytes) : Prop := 1 < text.length ∧ text.head? = some Byte.zero ∧ text.all Byte.isDigit

theorem whole_of_all_digits (h : Spelled p text) (hall : text.all Byte.isDigit) : p.whole = text := by
  obtain ⟨hm, he⟩ := h
  rw [List.all_append, Bool.and_eq_true] at hall
  cases he with
  | absent =>
    cases hm with
    | whole => rw [List.append_nil]
    | point =>
      rw [List.all_append, List.all_cons, Bool.and_eq_true, Bool.and_eq_true] at hall
      exact absurd hall.1.2.1 (by decide)
  | present hmark =>
    rw [List.all_cons, (letter_of_mark hmark).2.1] at hall
    cases hall.2

theorem value?_of_decimal (h : Spelled p text) (hdecimal : ¬IsOctal text) :
    Literal.value? ⟨p, text.all Byte.isDigit⟩ = some p.toRat := by
  refine if_neg fun hoctal => hdecimal ?_
  obtain ⟨hall, hlength, hhead⟩ := hoctal
  rw [whole_of_all_digits h hall] at hlength hhead
  exact ⟨hlength, hhead, hall⟩

theorem roundsTo_signed (hnearest : Magnitude.IsNearest q m) (hq : 0 < q) (hinfinite : ¬m.isInfinite) (hzero : ¬m.isZero)
    (negative : Bool) : RoundsTo (if negative then -q else q) (.number negative m) := by
  have hzero' : m.isZero = false := by simpa using hzero
  refine ⟨m, ?_, hinfinite, ?_⟩
  · cases negative with
    | true => rwa [if_pos rfl, abs_neg, abs_of_pos hq]
    | false => rwa [if_neg (by decide), abs_of_pos hq]
  · cases negative with
    | true => simp [hzero', hq]
    | false => simp [hq.le]

theorem roundsTo_zero : RoundsTo 0 (.number false .zero) :=
  ⟨.zero, by rw [abs_zero]; exact Magnitude.toRat_zero ▸ Magnitude.isNearest_toRat .zero, by decide, rfl⟩

/-- A finite value that is not zero is written as a literal for it. -/
theorem isFactor_write (hinfinite : ¬m.isInfinite) (hzero : ¬m.isZero) (negative : Bool) :
    ∃ q, IsFactor (Numeral.write (.number negative m)) (.constant (.literal q)) ∧ RoundsTo q (.number negative m) ∧
      q ≠ 0 := by
  obtain ⟨p, hspelled, -, hvalue⟩ := Numeral.layout_spelled hinfinite hzero
  have hdecimal : ¬IsOctal (Numeral.layout m) := by
    rintro ⟨-, hhead, hall⟩
    exact absurd (List.all_eq_true.1 hall _ (Numeral.layout_head hzero hhead)) (by decide)
  have hnearest := Magnitude.shortest_isNearest m
  have hpos : 0 < m.shortest.toRat := hnearest.pos hzero (by rw [Decimal.toRat]; positivity)
  have hfactor := isFactor_literal hspelled (value?_of_decimal hspelled hdecimal) negative
  rw [hvalue] at hfactor
  refine ⟨_, ?_, roundsTo_signed hnearest hpos hinfinite hzero negative, ?_⟩
  · rwa [Numeral.write_eq hinfinite hzero]
  · cases negative with
    | true => exact neg_ne_zero.2 hpos.ne'
    | false => exact hpos.ne'

/-- A number of the formula stands for itself. -/
theorem isFactor_number (h : Number text) (hread : Numeral.read text = .number negative m) (hinfinite : ¬m.isInfinite)
    (hzero : ¬m.isZero) (hdecimal : ¬IsOctal text) :
    ∃ q, IsFactor text (.constant (.literal q)) ∧ (RoundsTo q (.number negative m) ∨ Overlong text q) ∧ q ≠ 0 := by
  obtain ⟨p, hspelled⟩ := exists_spelled h
  have hfactor := isFactor_literal hspelled (value?_of_decimal hspelled hdecimal) false
  have hvalue := hspelled.read false
  rw [show signOf false ++ text = text from rfl, hread] at hvalue
  obtain ⟨rfl, hm⟩ := Binary64.number.inj hvalue
  have hcoefficient : p.coefficient ≠ 0 := by
    intro hnone
    have hnearest := Magnitude.ofScaled_isNearest (show 0 < 10 by norm_num) p.coefficient
      (p.readExponent - p.fraction.length - p.uncounted)
    rw [← hm, hnone, Nat.cast_zero, zero_mul] at hnearest
    exact lt_irrefl _ (hnearest.pos hzero le_rfl)
  have hpos : 0 < p.toRat :=
    mul_pos (Nat.cast_pos.2 (Nat.pos_of_ne_zero hcoefficient)) (zpow_pos (by norm_num) _)
  refine ⟨p.toRat, hfactor, ?_, hpos.ne'⟩
  by_cases hcounted : p.Counted
  · obtain ⟨m', hread', hnearest⟩ := hspelled.read_isNearest hcounted false
    obtain ⟨-, rfl⟩ := Binary64.number.inj (hread'.symm.trans hread)
    exact .inl (roundsTo_signed hnearest hpos hinfinite hzero false)
  · refine .inr ⟨Nat.lt_of_not_le fun hlength => hcounted ?_, p, hspelled, hcounted, rfl⟩
    have hread' : Numeral.read (signOf false ++ text) = .number false m := hread
    exact hspelled.counted_of_length_le hlength hread' hinfinite hzero

theorem isFactor_digit {b : UInt8} (hb : Byte.isDigit b) (negative : Bool) :
    IsFactor (signOf negative ++ [b])
      (.constant (.literal (if negative then -((b.toNat - 48 : Nat) : Rat) else ((b.toNat - 48 : Nat) : Rat)))) := by
  have hdigits : Digits [b] := fun c hc => List.mem_singleton.1 hc ▸ hb
  have hspelled : Spelled ⟨[b], [], false, []⟩ ([b] ++ []) :=
    .mk (.whole hdigits (List.cons_ne_nil _ _) rfl) (.absent rfl rfl)
  have hvalue : (Parts.mk [b] [] false []).toRat = ((b.toNat - 48 : Nat) : Rat) := by
    simp [Parts.toRat, Parts.coefficient, Parts.exponent, digitsValue]
  have hliteral := value?_of_decimal hspelled fun hoctal => absurd hoctal.1 (by simp)
  rw [hvalue] at hliteral
  exact isFactor_literal hspelled hliteral negative

/-- The literals that stand for signs. -/
theorem isFactor_unit (negative : Bool) :
    IsFactor (signOf negative ++ [Byte.one]) (.constant (.literal (if negative then -1 else 1))) := by
  simpa [show Byte.one.toNat - 48 = 1 from rfl] using isFactor_digit (b := Byte.one) rfl negative

theorem isFactor_zero : IsFactor [Byte.zero] (.constant (.literal 0)) := by
  simpa [show Byte.zero.toNat - 48 = 0 from rfl, signOf] using isFactor_digit (b := Byte.zero) rfl false

theorem roundsTo_unit (negative : Bool) : ∃ m, RoundsTo (if negative then -1 else 1) (.number negative m) := by
  have hnearest := Magnitude.ofScaled_isNearest (show 0 < 10 by norm_num) 1 0
  rw [zpow_zero, mul_one, Nat.cast_one] at hnearest
  exact ⟨_, roundsTo_signed hnearest one_pos (by decide +kernel) (by decide +kernel) negative⟩

theorem isFactor_nan : IsFactor (ConstantForm.text .nan) (.constant .nan) :=
  isFactor_call_nil (b := 109) (w := (bytes "math.NaN").tail) rfl (by decide +kernel) rfl rfl

theorem isFactor_infinity (negative : Bool) :
    IsFactor (ConstantForm.text (.infinity negative)) (.constant (.infinity (if negative then -1 else 1))) := by
  have hcall := (isFactor_unit negative).isExpression.isList.call 109 (bytes "math.Inf").tail rfl
    (by decide +kernel) rfl rfl
  cases negative with
  | false => exact hcall
  | true => exact hcall

theorem isFactor_signedZero (negative : Bool) :
    IsFactor (ConstantForm.text (.signedZero negative)) (.constant (.copysign 0 (if negative then -1 else 1))) := by
  have hcall := (isFactor_zero.isExpression.isList.append (isFactor_unit negative).isExpression).call 109
    (bytes "math.Copysign").tail rfl (by decide +kernel) rfl rfl
  cases negative with
  | false => exact hcall
  | true => exact hcall

/-- **Every form of a constant** is a factor that retains its value, and no literal zero if it divides. -/
theorem isFactor_constant (h : Legible text) (divisor : Bool) :
    ∃ c, IsFactor (ConstantForm.of text divisor).text (.constant c) ∧ Retains text c ∧
      (divisor = true → c ≠ .literal 0) := by
  have hnonzero : ∀ {q : Rat}, q ≠ 0 → divisor = true → Constant.literal q ≠ .literal 0 :=
    fun hq _ heq => hq (Constant.literal.inj heq)
  unfold ConstantForm.of Retains
  cases hread : Numeral.read text with
  | nan => exact ⟨_, isFactor_nan, .inl .nan, nofun⟩
  | number negative m =>
    dsimp only
    by_cases hinfinite : m.isInfinite
    · rw [if_pos hinfinite, Magnitude.isInfinite_iff.1 hinfinite]
      have hsign : decide ((if negative then -1 else 1 : Rat) < 0) = negative := by cases negative <;> norm_num
      have hdenotes := Constant.Denotes.infinity (if negative then -1 else 1)
      rw [hsign] at hdenotes
      exact ⟨_, isFactor_infinity negative, .inl hdenotes, nofun⟩
    · rw [if_neg hinfinite]
      by_cases hzero : m.isZero
      · rw [if_pos hzero, Magnitude.isZero_iff.1 hzero]
        have hsigned : ∀ negative, ∃ c, IsFactor (ConstantForm.text (.signedZero negative)) (.constant c) ∧
            (c.Denotes (.number negative .zero) ∨ ∃ q, c = .literal q ∧ Overlong text q) ∧
            (divisor = true → c ≠ .literal 0) := by
          intro negative
          obtain ⟨m', hunit⟩ := roundsTo_unit negative
          exact ⟨_, isFactor_signedZero negative, .inl (.copysign roundsTo_zero hunit), nofun⟩
        cases negative with
        | true => exact hsigned true
        | false =>
          cases divisor with
          | true => exact hsigned false
          | false => exact ⟨_, isFactor_zero, .inl (.literal roundsTo_zero), nofun⟩
      · rw [if_neg hzero]
        split
        · obtain ⟨q, hfactor, hrounds, hq⟩ := isFactor_write hinfinite hzero negative
          exact ⟨.literal q, hfactor, .inl (.literal hrounds), hnonzero hq⟩
        · rename_i hdecimal
          rcases h with hnumber | ⟨v, rfl⟩
          · obtain ⟨q, hfactor, hrounds, hq⟩ := isFactor_number hnumber hread hinfinite hzero hdecimal
            exact ⟨.literal q, hfactor, hrounds.imp .literal fun hlong => ⟨q, rfl, hlong⟩, hnonzero hq⟩
          · rw [Numeral.read_write] at hread
            obtain ⟨q, hfactor, hrounds, hq⟩ := isFactor_write hinfinite hzero negative
            rw [hread]
            exact ⟨.literal q, hfactor, .inl (.literal hrounds), hnonzero hq⟩

end Constants

end Source

end ComplexFormula
