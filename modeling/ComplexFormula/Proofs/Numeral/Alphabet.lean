import ComplexFormula.Numeral.Reader
import Mathlib

/-!
# The bytes of numerals

A numeral with digits is made of digits, underscores, signs, a point and the marks of bases and exponents
(`isNumeralByte`). The other numerals are `inf`, `infinity` and `nan`, and a text that is no numeral reads as zero, so a
text whose value is finite and not zero has no other bytes (`isNumeralByte_of_read`).
-/

namespace ComplexFormula.Numeral

variable {text : Bytes} {b : UInt8}

/-- The bytes of numerals that have digits. -/
def isNumeralByte (b : UInt8) : Bool :=
  (hexValue? b).isSome || [Byte.underscore, Byte.point, Byte.plus, Byte.minus].contains b
    || [Byte.letterX, Byte.letterP].contains (Byte.toLower b)

/-- The first `n` bytes of a text could stand in a numeral. -/
def NumeralUpTo (n : Nat) (text : Bytes) : Prop := ∀ b ∈ text.take n, isNumeralByte b

theorem NumeralUpTo.zero (text : Bytes) : NumeralUpTo 0 text := by
  intro b hb
  rw [List.take_zero] at hb
  exact absurd hb List.not_mem_nil

theorem NumeralUpTo.add {m n : Nat} (hm : NumeralUpTo m text) (hn : NumeralUpTo n (text.drop m)) :
    NumeralUpTo (m + n) text := by
  intro b hb
  rw [List.take_add, List.mem_append] at hb
  exact hb.elim (hm b) (hn b)

theorem NumeralUpTo.cons {n : Nat} {rest : Bytes} (hb : isNumeralByte b) (h : NumeralUpTo n rest) :
    NumeralUpTo (1 + n) (b :: rest) :=
  NumeralUpTo.add (fun _ hc => List.mem_singleton.1 hc ▸ hb) h

/-! ## The parts of a numeral -/

section Parts

theorem isNumeralByte_of_isDigitOf {hex : Bool} (h : isDigitOf hex b) : isNumeralByte b := by
  have hvalue : (hexValue? b).isSome := by
    cases hex with
    | true => exact h
    | false =>
      have hdigit : Byte.isDigit b := h
      rw [hexValue?, if_pos hdigit]
      rfl
  rw [isNumeralByte, hvalue]
  rfl

theorem numeralUpTo_digitRun (hex : Bool) (text : Bytes) : NumeralUpTo (digitRun hex text).length text := by
  intro b hb
  have hrun : text.take (digitRun hex text).length = digitRun hex text :=
    (List.prefix_iff_eq_take.1 (List.takeWhile_prefix _)).symm
  rw [hrun] at hb
  have hdigit := List.mem_takeWhile_imp hb
  rw [Bool.or_eq_true, beq_iff_eq] at hdigit
  rcases hdigit with hdigit | rfl
  · exact isNumeralByte_of_isDigitOf hdigit
  · decide

theorem numeralUpTo_sign (text : Bytes) : NumeralUpTo (sign text).2 text := by
  unfold sign
  split
  · exact .cons (by decide) (.zero _)
  · exact .cons (by decide) (.zero _)
  · exact .zero _

theorem numeralUpTo_digits (hex : Bool) (text : Bytes) : NumeralUpTo (digits hex text).used text := by
  have hwhole := numeralUpTo_digitRun hex text
  simp only [digits]
  split
  · rename_i rest hrest
    rw [Nat.add_assoc]
    refine hwhole.add ?_
    rw [hrest]
    exact .cons (by decide) (numeralUpTo_digitRun hex rest)
  · exact hwhole

theorem numeralUpTo_exponent {mark : UInt8} (hmark : ∀ b, Byte.toLower b = mark → isNumeralByte b) {e : Int} {n : Nat}
    (h : exponent? mark text = some (e, n)) : NumeralUpTo n text := by
  cases text with
  | nil =>
    cases h
    exact .zero _
  | cons b rest =>
    simp only [exponent?] at h
    split at h
    · rename_i hb
      split at h
      · obtain ⟨-, rfl⟩ := Prod.mk.inj (Option.some.inj h)
        rw [Nat.add_assoc]
        exact .cons (hmark b hb) ((numeralUpTo_sign rest).add (numeralUpTo_digitRun false _))
      · cases h
    · cases h
      exact .zero _

theorem numeralUpTo_mark (h : isHex text) : NumeralUpTo 2 text := by
  unfold isHex at h
  split at h
  · rename_i mark b rest
    have hmark : isNumeralByte mark := by
      rw [isNumeralByte, beq_iff_eq.1 h]
      simp
    exact .cons (by decide) (.cons hmark (.zero _))
  · cases h

end Parts

/-! ## Numerals -/

section Numerals

/-- The mark of an exponent is `p` after hexadecimal digits and `e` otherwise. -/
theorem isNumeralByte_exponentMark (hex : Bool) {b : UInt8}
    (h : Byte.toLower b = if hex then Byte.letterP else Byte.letterE) : isNumeralByte b := by
  revert h b
  cases hex <;> decide +kernel

theorem numeralUpTo_positional {r : Reading} (h : positional? text = some r) : NumeralUpTo r.used text := by
  simp only [positional?, Option.bind_eq_bind, Option.bind_none, Option.ite_none_left_eq_some, Option.bind_eq_some_iff,
    Option.some.injEq] at h
  obtain ⟨-, ⟨e, tail⟩, hexponent, -, -, rfl⟩ := h
  have hmarked : ∀ unsigned : Bytes, NumeralUpTo (if isHex unsigned then 2 else 0) unsigned := by
    intro unsigned
    split
    · rename_i hhex
      exact numeralUpTo_mark hhex
    · exact .zero _
  refine (numeralUpTo_sign text).add (((hmarked _).add (numeralUpTo_digits _ _)).add ?_)
  exact numeralUpTo_exponent (fun b hb => isNumeralByte_exponentMark _ hb) hexponent

/-- The numerals without digits are infinite or nothing at all. -/
theorem not_finite_of_verbal {r : Reading} (h : verbal? text = some r) {negative : Bool} {m : Magnitude}
    (hvalue : r.form.value = .number negative m) : m.isInfinite := by
  simp only [verbal?] at h
  split_ifs at h <;> cases h
  · cases hvalue
    decide
  · cases hvalue
    decide
  · cases hvalue

theorem form?_cases {form : Form} (h : form? text = some form) :
    (∃ r, verbal? text = some r ∧ r.form = form) ∨
      ∃ r, positional? text = some r ∧ r.used = text.length ∧ r.form = form := by
  unfold form? front? at h
  cases hverbal : verbal? text with
  | some r =>
    simp only [hverbal, Option.orElse_eq_orElse, Option.orElse_some, Option.ite_none_right_eq_some, Option.some.injEq] at h
    exact .inl ⟨r, rfl, h.2⟩
  | none =>
    cases hpositional : positional? text with
    | none => simp [hverbal, hpositional] at h
    | some r =>
      simp only [hverbal, hpositional, Option.orElse_eq_orElse, Option.orElse_none, Option.ite_none_right_eq_some,
        Option.some.injEq] at h
      exact .inr ⟨r, rfl, h⟩

/-- **A text with a finite value that is not zero** has bytes of numerals only. -/
theorem isNumeralByte_of_read {negative : Bool} {m : Magnitude} (h : read text = .number negative m)
    (hinfinite : ¬m.isInfinite) (hzero : ¬m.isZero) : ∀ b ∈ text, isNumeralByte b := by
  cases hform : form? text with
  | none =>
    rw [read, read?, hform] at h
    cases h
    exact absurd rfl hzero
  | some form =>
    rw [read, read?, hform] at h
    rcases form?_cases hform with ⟨r, hverbal, rfl⟩ | ⟨r, hpositional, hused, -⟩
    · exact absurd (not_finite_of_verbal hverbal h) hinfinite
    · have hbytes := numeralUpTo_positional hpositional
      rw [hused, NumeralUpTo, List.take_length] at hbytes
      exact hbytes

end Numerals

end ComplexFormula.Numeral
