import ComplexFormula.Proofs.Binary64.Rounding
import ComplexFormula.Proofs.Grammar.Lexemes
import Mathlib

/-!
# The values of decimal numbers

A number has an exact value, which its digits give (`Parts.toRat`). What is read is the nearest magnitude to it, provided
that all digits count (`read_isNearest`). They do not if there are more than eight hundred before the point, or if the
exponent has more than five digits. In a number of at most eight hundred bytes only the second can happen, and then the
number is read as zero or infinity (`counted_of_length_le`).
-/

namespace ComplexFormula

namespace Lexeme

/-! ## Digits -/

theorem Digits.append {w w' : Bytes} (h : Digits w) (h' : Digits w') : Digits (w ++ w') := by
  intro b hb
  rcases List.mem_append.1 hb with hb | hb
  · exact h b hb
  · exact h' b hb

/-- The number that digits denote in a base. -/
def digitsValue (base : Nat) (ds : Bytes) : Nat := ds.foldl (fun v b => base * v + (b.toNat - 48)) 0

theorem isDigit_iff {b : UInt8} : Byte.isDigit b = true ↔ 48 ≤ b.toNat ∧ b.toNat ≤ 57 := by
  simp only [Byte.isDigit, Bool.and_eq_true, decide_eq_true_eq, UInt8.le_iff_toNat_le]
  rfl

theorem valueOf_digits {ds : Bytes} (hd : Digits ds) (base : Nat) : Numeral.valueOf base ds = digitsValue base ds := by
  refine List.foldl_ext _ _ _ fun v b hb => ?_
  have hdigit := hd b hb
  have hne : b ≠ Byte.underscore := by
    rintro rfl
    exact absurd hdigit (by decide)
  rw [if_neg hne, Numeral.hexValue?, if_pos hdigit, Option.getD_some]

theorem foldl_digits (base v : Nat) (ds : Bytes) :
    ds.foldl (fun v b => base * v + (b.toNat - 48)) v = v * base ^ ds.length + digitsValue base ds := by
  induction ds generalizing v with
  | nil => simp [digitsValue]
  | cons d ds ih =>
    rw [digitsValue, List.foldl_cons, List.foldl_cons, ih, ih (base * 0 + (d.toNat - 48)), List.length_cons]
    ring

theorem digitsValue_append (base : Nat) (ds ds' : Bytes) :
    digitsValue base (ds ++ ds') = digitsValue base ds * base ^ ds'.length + digitsValue base ds' := by
  rw [digitsValue, List.foldl_append, foldl_digits]
  rfl

theorem digitsValue_cons (base : Nat) (d : UInt8) (ds : Bytes) :
    digitsValue base (d :: ds) = (d.toNat - 48) * base ^ ds.length + digitsValue base ds := by
  rw [digitsValue, List.foldl_cons, foldl_digits]
  ring

theorem digitsValue_replicate (base n : Nat) : digitsValue base (List.replicate n Byte.zero) = 0 := by
  induction n with
  | zero => rfl
  | succ n ih =>
    rw [List.replicate_succ, digitsValue_cons, ih]
    exact Nat.zero_mul _

theorem digitsValue_lt {ds : Bytes} (hd : Digits ds) : digitsValue 10 ds < 10 ^ ds.length := by
  induction ds with
  | nil => decide
  | cons d ds ih =>
    have hdigit := isDigit_iff.1 (hd d List.mem_cons_self)
    have hrest := ih fun b hb => hd b (List.mem_cons_of_mem _ hb)
    rw [digitsValue_cons, List.length_cons, pow_succ]
    have hfirst : (d.toNat - 48) * 10 ^ ds.length ≤ 9 * 10 ^ ds.length := Nat.mul_le_mul_right _ (by omega)
    omega

/-! ## Exponents -/

/-- One digit of an exponent. -/
def exponentStep (e : Nat) (b : UInt8) : Nat :=
  if b = Byte.underscore ∨ 10000 ≤ e then e else e * 10 + (b.toNat - 48)

theorem foldl_exponentStep_of_le {e : Nat} (he : 10000 ≤ e) (ds : Bytes) : ds.foldl exponentStep e = e := by
  induction ds with
  | nil => rfl
  | cons d ds ih => rw [List.foldl_cons, exponentStep, if_pos (.inr he), ih]

/-- Reading an exponent goes wrong from 100000 on only, and then it reads at least 10000 and at most what is written. -/
theorem exponentValue_cases {ds : Bytes} (hd : Digits ds) :
    Numeral.exponentValue ds = digitsValue 10 ds ∨ (10000 ≤ Numeral.exponentValue ds ∧
      Numeral.exponentValue ds ≤ digitsValue 10 ds ∧ 100000 ≤ digitsValue 10 ds) := by
  have hall : ∀ (ds : Bytes) (e : Nat), Digits ds →
      ds.foldl exponentStep e = ds.foldl (fun v b => 10 * v + (b.toNat - 48)) e ∨
        (10000 ≤ ds.foldl exponentStep e ∧
          ds.foldl exponentStep e ≤ ds.foldl (fun v b => 10 * v + (b.toNat - 48)) e ∧
          100000 ≤ ds.foldl (fun v b => 10 * v + (b.toNat - 48)) e) := by
    intro ds
    induction ds with
    | nil => exact fun _ _ => .inl rfl
    | cons d ds ih =>
      intro e hd
      by_cases he : 10000 ≤ e
      · rw [foldl_exponentStep_of_le he, foldl_digits, List.length_cons, pow_succ', ← Nat.mul_assoc]
        have hrest : e * 10 ≤ e * 10 * 10 ^ ds.length := Nat.le_mul_of_pos_right _ (by positivity)
        omega
      · have hne : d ≠ Byte.underscore := by
          rintro rfl
          exact absurd (hd _ List.mem_cons_self) (by decide)
        have hstep : exponentStep e d = 10 * e + (d.toNat - 48) := by
          rw [exponentStep, if_neg (by simp [hne, he]), Nat.mul_comm]
        rw [List.foldl_cons, List.foldl_cons, hstep]
        exact ih _ fun b hb => hd b (List.mem_cons_of_mem _ hb)
  exact hall ds 0 hd

namespace Parts

/-! ## Values -/

variable {p : Parts} {w : Bytes} {m : Magnitude}

/-- The exponent that is written. -/
def exponent (p : Parts) : Int := if p.negative then -(digitsValue 10 p.power : Int) else digitsValue 10 p.power

def coefficient (p : Parts) : Nat := digitsValue 10 (p.whole ++ p.fraction)

/-- The number that is written. -/
def toRat (p : Parts) : Rat := p.coefficient * 10 ^ (p.exponent - p.fraction.length)

/-- Reading leaves out no digit. -/
def Counted (p : Parts) : Prop := Numeral.exponentValue p.power = digitsValue 10 p.power ∧ p.uncounted = 0

instance : Decidable p.Counted := inferInstanceAs (Decidable (_ ∧ _))

theorem readExponent_eq (h : p.Counted) : p.readExponent = p.exponent := by
  rw [readExponent, h.1]
  rfl

theorem uncounted_eq_zero (h : p.whole.length ≤ 800) : p.uncounted = 0 := by
  refine if_pos (le_trans ?_ h)
  exact le_trans (List.dropWhile_sublist _).length_le (List.length_filter_le _ _)

end Parts

variable {p : Parts} {w : Bytes} {m : Magnitude}

theorem Spelled.digits_append (h : Spelled p w) : Digits (p.whole ++ p.fraction) := by
  obtain ⟨hwhole, hfraction, -⟩ := h.digits
  exact hwhole.append hfraction

theorem Spelled.read (h : Spelled p w) (negative : Bool) :
    Numeral.read (signOf negative ++ w) =
      .number negative (.ofScaled 10 p.coefficient (p.readExponent - p.fraction.length - p.uncounted)) := by
  rw [Numeral.read, Numeral.read?, form?_spelled h, Option.map_some, Option.getD_some, Parts.form,
    valueOf_digits h.digits_append]
  rfl

/-- **A number is read as the magnitude nearest to it** if all its digits count. -/
theorem Spelled.read_isNearest (h : Spelled p w) (hcounted : p.Counted) (negative : Bool) :
    ∃ m, Numeral.read (signOf negative ++ w) = .number negative m ∧ Magnitude.IsNearest p.toRat m := by
  refine ⟨_, h.read negative, ?_⟩
  rw [Parts.readExponent_eq hcounted, hcounted.2, Nat.cast_zero, sub_zero]
  exact Magnitude.ofScaled_isNearest (by norm_num) _ _

theorem Spelled.length_le (h : Spelled p w) : p.whole.length + p.fraction.length ≤ w.length := by
  obtain ⟨hm, -⟩ := h
  rw [List.length_append]
  cases hm with
  | whole _ _ hf =>
    rw [hf, List.length_nil]
    omega
  | point =>
    rw [List.length_append, List.length_cons]
    omega

/-- **In a short number all digits count**, unless it is read as zero or infinity. -/
theorem Spelled.counted_of_length_le (h : Spelled p w) (hlength : w.length ≤ 800) {negative : Bool}
    (hread : Numeral.read (signOf negative ++ w) = .number negative m) (hinfinite : ¬m.isInfinite) (hzero : ¬m.isZero) :
    p.Counted := by
  have hparts := h.length_le
  have huncounted : p.uncounted = 0 := Parts.uncounted_eq_zero (by omega)
  refine ⟨?_, huncounted⟩
  have hdigits := h.digits_append
  rcases exponentValue_cases h.digits.2.2.1 with hexact | ⟨hlarge, -⟩
  · exact hexact
  · exfalso
    rw [h.read negative, huncounted, Nat.cast_zero, sub_zero] at hread
    obtain rfl := (Binary64.number.inj hread).2
    have hnearest := Magnitude.ofScaled_isNearest (show 0 < 10 by norm_num) p.coefficient
      (p.readExponent - p.fraction.length)
    rw [Nat.cast_ofNat] at hnearest
    have hpower : (0 : Rat) < 10 ^ (p.readExponent - p.fraction.length) := zpow_pos (by norm_num) _
    have hnonneg : (0 : Rat) ≤ p.coefficient * 10 ^ (p.readExponent - p.fraction.length) :=
      mul_nonneg (Nat.cast_nonneg _) hpower.le
    cases hsign : p.negative with
    | false =>
      -- too large for a finite value
      have hone : (1 : Rat) ≤ p.coefficient := by
        rw [Nat.one_le_cast]
        refine Nat.pos_of_ne_zero fun hnone => ?_
        have hpos := hnearest.pos hzero hnonneg
        rw [hnone, Nat.cast_zero, zero_mul] at hpos
        exact lt_irrefl _ hpos
      have hexponent := hnearest.exponent_lt hinfinite (le_mul_of_one_le_left hpower.le hone)
      simp only [Parts.readExponent, hsign, Bool.false_eq_true, if_false] at hexponent
      omega
    | true =>
      -- too small for a non-zero value
      have hcoefficient : (p.coefficient : Rat) ≤ 10 ^ ((p.whole ++ p.fraction).length : Int) := by
        rw [zpow_natCast]
        exact_mod_cast (digitsValue_lt hdigits).le
      have hle : (p.coefficient : Rat) * 10 ^ (p.readExponent - p.fraction.length) ≤
          10 ^ ((p.whole ++ p.fraction).length + (p.readExponent - p.fraction.length)) := by
        rw [zpow_add₀ (by norm_num)]
        exact mul_le_mul_of_nonneg_right hcoefficient hpower.le
      have hexponent := hnearest.lt_exponent hzero hnonneg hle
      simp only [Parts.readExponent, hsign, if_true, List.length_append] at hexponent
      omega

end Lexeme

end ComplexFormula
