import ComplexFormula.Proofs.Numeral.RoundTrip
import Mathlib

/-!
# The shortest decimal

The numbers that round to a value form an interval (`IsNearest.between`), so a decimal with `n` digits rounds to it only
if one of the value's two neighbours on the grid of `n`-digit decimals does (`Neighbours.side`), and these are the two that
`Magnitude.candidate?` tests (`candidate?_cases`). One with seventeen digits always does, since the grid is finer than the
scale by then (`candidate?_seventeen`).

So the digits that are written are as few as can be, and of all decimals that are as short they are the nearest one to the
value (`layout_isShortest`).
-/

namespace ComplexFormula

open Lexeme

namespace Magnitude

variable {q q' : Rat} {m m' : Magnitude}

/-! ## The numbers that round to a value -/

/-- What is not nearer to the lower one of two numbers is not below their middle. -/
theorem middle_le {a b : Rat} (hab : a < b) (h : |q - b| ≤ |q - a|) : (a + b) / 2 ≤ q := by
  rcases abs_cases (q - a) with ⟨ha, _⟩ | ⟨ha, _⟩ <;> rcases abs_cases (q - b) with ⟨hb, _⟩ | ⟨hb, _⟩ <;> linarith

/-- What is not nearer to the upper one of two numbers is not above their middle. -/
theorem le_middle {a b : Rat} (hab : a < b) (h : |q - a| ≤ |q - b|) : q ≤ (a + b) / 2 := by
  rcases abs_cases (q - a) with ⟨ha, _⟩ | ⟨ha, _⟩ <;> rcases abs_cases (q - b) with ⟨hb, _⟩ | ⟨hb, _⟩ <;> linarith

/-- Rounding is monotone. -/
theorem IsNearest.mono (h : IsNearest q m) (h' : IsNearest q' m') (hq : q ≤ q') : m.index ≤ m'.index := by
  refine Nat.le_of_not_lt fun hlt => ?_
  have hvalue := toRat_lt hlt
  -- both numbers are the middle of the two values, which rounds in one way only
  have hlow := middle_le hvalue (h.le m')
  have hhigh := le_middle hvalue (h'.le m)
  obtain rfl : q = q' := by linarith
  rw [h.unique h'] at hlt
  exact lt_irrefl _ hlt

theorem exists_isNearest (hq : 0 ≤ q) : ∃ m, IsNearest q m := by
  refine ⟨nearest (q.num.toNat * 2 ^ 1074) q.den, ?_⟩
  have hnearest := nearest_isNearest (q.num.toNat * 2 ^ 1074) q.den_pos
  have hnum : ((q.num.toNat : Int) : Rat) = q.num := by rw [Int.toNat_of_nonneg (Rat.num_nonneg.2 hq)]
  have hvalue : ((q.num.toNat * 2 ^ 1074 : Nat) : Rat) / q.den / 2 ^ 1074 = q := by
    have hunit : (2 ^ 1074 : Rat) ≠ 0 := by positivity
    rw [Nat.cast_mul, ← Int.cast_natCast q.num.toNat, hnum, Nat.cast_pow, Nat.cast_ofNat, mul_div_right_comm,
      mul_div_assoc, div_self hunit, mul_one, Rat.num_div_den]
  rwa [hvalue] at hnearest

/-- **The numbers that round to a value form an interval.** -/
theorem IsNearest.between (h : IsNearest q m) (h' : IsNearest q' m) {x : Rat} (hx : 0 ≤ x) (hlow : q ≤ x)
    (hhigh : x ≤ q') : IsNearest x m := by
  obtain ⟨m', hm'⟩ := exists_isNearest hx
  rwa [← ext_index (le_antisymm (hm'.mono h' hhigh) (h.mono hm' hlow))]

theorem ofDecimal_eq_iff {d : Decimal} : ofDecimal d = m ↔ IsNearest d.toRat m := by
  constructor
  · rintro rfl
    exact ofDecimal_isNearest d
  · exact (ofDecimal_isNearest d).unique

/-! ## How close to a value is close enough -/

/-- A value is at most `2^53` times its distance from the one below. -/
theorem unitsAt_succ_le (n : Nat) : unitsAt (n + 1) ≤ 2 ^ 53 * 2 ^ (n / 2 ^ 52 - 1) := by
  rw [unitsAt_succ, unitsAt_eq]
  split
  · rename_i hlow
    rw [Nat.div_eq_of_lt hlow]
    omega
  · rw [← Nat.succ_mul]
    exact Nat.mul_le_mul_right _ (by omega)

theorem toRat_succ_le {n : Nat} (hn : n < infinityIndex) :
    (⟨n + 1, hn⟩ : Magnitude).toRat ≤
      2 ^ 53 * ((⟨n + 1, hn⟩ : Magnitude).toRat - (⟨n, hn.le⟩ : Magnitude).toRat) := by
  have hgap : ((unitsAt (n + 1) : Nat) : Rat) ≤ 2 ^ 53 * ((unitsAt (n + 1) : Nat) - (unitsAt n : Nat)) := by
    have hunits := unitsAt_succ n
    have hle := unitsAt_succ_le n
    rw [hunits] at hle ⊢
    push_cast
    rw [add_sub_cancel_left]
    exact_mod_cast hle
  simp only [toRat, units]
  rw [← sub_div, ← mul_div_assoc]
  exact div_le_div_of_nonneg_right hgap (by positivity)

theorem toRat_nonneg (m : Magnitude) : 0 ≤ m.toRat := div_nonneg (Nat.cast_nonneg _) (by positivity)

/-- What differs from a value by less than its `2^54`th part rounds to it. -/
theorem isNearest_of_close (hinfinite : ¬m.isInfinite) (hzero : ¬m.isZero) (h : 2 ^ 54 * |q - m.toRat| < m.toRat) :
    IsNearest q m := by
  obtain ⟨n, hle⟩ := m
  have hn : n < infinityIndex := lt_of_le_of_ne hle fun heq => hinfinite (isInfinite_iff.2 (ext_index heq))
  rcases le_total (⟨n, hle⟩ : Magnitude).toRat q with hlow | hhigh
  · rw [abs_of_nonneg (sub_nonneg.2 hlow)] at h
    refine isNearest_lower hn hlow (.inl ?_)
    have hgap := toRat_succ_le hn
    have hlt : (⟨n, hle⟩ : Magnitude).toRat < (⟨n + 1, hn⟩ : Magnitude).toRat := toRat_lt (Nat.lt_succ_self n)
    linarith
  · rw [abs_of_nonpos (sub_nonpos.2 hhigh)] at h
    cases n with
    | zero => exact absurd (isZero_iff.2 (ext_index rfl)) hzero
    | succ n =>
      refine isNearest_upper (Nat.lt_of_succ_lt hn) hhigh (.inl ?_)
      have hgap := toRat_succ_le (Nat.lt_of_succ_lt hn)
      linarith

end Magnitude

/-! ## The power of ten of the leading digit -/

theorem decimalLength_pos (n : Nat) : 0 < decimalLength n := by
  rw [decimalLength]
  split <;> omega

theorem pow_decimalLength {n : Nat} (hn : 0 < n) : 10 ^ (decimalLength n - 1) ≤ n ∧ n < 10 ^ decimalLength n := by
  fun_induction decimalLength n with
  | case1 n h =>
    rw [Nat.sub_self, pow_zero, pow_one]
    omega
  | case2 n h ih =>
    obtain ⟨hlow, hhigh⟩ := ih (by omega)
    obtain ⟨k, hk⟩ : ∃ k, decimalLength (n / 10) = k + 1 := ⟨_, (Nat.succ_pred_eq_of_pos (decimalLength_pos _)).symm⟩
    rw [hk, Nat.add_sub_cancel] at hlow
    rw [hk] at hhigh ⊢
    rw [Nat.add_sub_cancel, pow_succ]
    rw [pow_succ _ (k + 1)]
    omega

/-- The power of ten of the leading digit of `u / 2^j`, taken from a multiple that is at least one. -/
theorem decimalLength_scaled {u j k : Nat} (hu : 0 < u) (hjk : j ≤ 3 * k) :
    (10 : Rat) ^ ((decimalLength ((u * Nat.pow 10 k) >>> j) : Int) - (k + 1 : Nat)) ≤ u / 2 ^ j ∧
      (u : Rat) / 2 ^ j < 10 ^ ((decimalLength ((u * Nat.pow 10 k) >>> j) : Int) - k) := by
  rw [Nat.shiftRight_eq_div_pow, Nat.pow_eq]
  have hlarge : 0 < u * 10 ^ k / 2 ^ j := by
    refine Nat.div_pos ?_ (by positivity)
    calc 2 ^ j ≤ 2 ^ (3 * k) := Nat.pow_le_pow_right (by norm_num) hjk
      _ = (2 ^ 3) ^ k := pow_mul 2 3 k
      _ ≤ 10 ^ k := Nat.pow_le_pow_left (by norm_num) k
      _ ≤ u * 10 ^ k := Nat.le_mul_of_pos_left _ hu
  obtain ⟨hlow, hhigh⟩ := pow_decimalLength hlarge
  have hpos : 0 < decimalLength (u * 10 ^ k / 2 ^ j) := decimalLength_pos _
  generalize decimalLength (u * 10 ^ k / 2 ^ j) = digits at hlow hhigh hpos
  have htwo : (0 : Rat) < 2 ^ j := by positivity
  have hten : (0 : Rat) < 10 ^ k := by positivity
  rw [Nat.le_div_iff_mul_le (by positivity)] at hlow
  rw [Nat.div_lt_iff_lt_mul (by positivity)] at hhigh
  constructor
  · rw [show (digits : Int) - (k + 1 : Nat) = (digits - 1 : Nat) - k by omega, zpow_sub₀ (by norm_num), zpow_natCast,
      zpow_natCast, div_le_div_iff₀ hten htwo]
    exact_mod_cast hlow
  · rw [zpow_sub₀ (by norm_num), zpow_natCast, zpow_natCast, div_lt_div_iff₀ htwo hten]
    exact_mod_cast hhigh

namespace Magnitude

variable {m : Magnitude}

theorem units_pos (hzero : ¬m.isZero) : 0 < m.units := by
  have hpos : 0 < m.index := Nat.pos_of_ne_zero fun h => hzero (isZero_iff.2 (ext_index h))
  exact Nat.lt_of_le_of_lt (Nat.zero_le _) (strictMono_unitsAt hpos)

theorem leadingExponent_bounds (hzero : ¬m.isZero) :
    10 ^ m.leadingExponent ≤ m.toRat ∧ m.toRat < 10 ^ (m.leadingExponent + 1) := by
  have hscale : 1074 ≤ 3 * 400 := by norm_num
  rw [leadingExponent, toRat, show (401 : Int) = (400 + 1 : Nat) from rfl]
  generalize 1074 = j at hscale ⊢
  generalize 400 = k at hscale ⊢
  obtain ⟨hlow, hhigh⟩ := decimalLength_scaled (units_pos hzero) hscale
  refine ⟨hlow, ?_⟩
  rwa [Nat.cast_succ, ← sub_sub, sub_add_cancel]

/-! ## Neighbours on a grid -/

/-- Two decimals next to each other on the grid of those with `n` digits, and the value between them. -/
structure Neighbours (m : Magnitude) (n : Nat) (lower upper : Decimal) : Prop where
  exponent : lower.exponent = m.leadingExponent + 1 - n
  next : upper = ⟨lower.coefficient + 1, lower.exponent⟩
  low : lower.toRat ≤ m.toRat
  high : m.toRat < upper.toRat

/-- A value in steps of a grid, as the quotient whose whole part `candidate?` takes. -/
theorem toRat_scaled (m : Magnitude) (e : Int) :
    m.toRat = ((m.units * Nat.pow 10 (-e).toNat : Nat) : Rat) / (Nat.pow 10 e.toNat <<< 1074 : Nat) * 10 ^ e := by
  have hsplit : (10 : Rat) ^ e = 10 ^ e.toNat / 10 ^ (-e).toNat := by
    rw [← zpow_natCast, ← zpow_natCast, ← zpow_sub₀ (by norm_num)]
    congr 1
    omega
  have hshift : ∀ a k : Nat, ((a <<< k : Nat) : Rat) = a * 2 ^ k := fun a k => by
    rw [Nat.shiftLeft_eq, Nat.cast_mul, Nat.cast_pow, Nat.cast_ofNat]
  have hunit : (2 ^ 1074 : Rat) ≠ 0 := by positivity
  rw [hsplit, toRat, hshift, Nat.pow_eq, Nat.pow_eq, Nat.cast_mul, Nat.cast_pow, Nat.cast_pow, Nat.cast_ofNat]
  generalize (2 ^ 1074 : Rat) = unit at hunit
  field_simp

/-- **What is tested** for a number of digits, and what comes of it: a neighbour that rounds to the value, and the nearer
one if both do. -/
theorem candidate?_cases (m : Magnitude) (n : Nat) : ∃ lower upper, Neighbours m n lower upper ∧
    ((m.candidate? n = none ∧ ¬IsNearest lower.toRat m ∧ ¬IsNearest upper.toRat m) ∨
      (m.candidate? n = some lower ∧ (IsNearest upper.toRat m → m.toRat - lower.toRat ≤ upper.toRat - m.toRat)) ∨
      (m.candidate? n = some upper ∧ (IsNearest lower.toRat m → upper.toRat - m.toRat ≤ m.toRat - lower.toRat))) := by
  simp only [candidate?]
  generalize he : m.leadingExponent + 1 - n = e
  have hvalue := toRat_scaled m e
  have hden : 0 < Nat.pow 10 e.toNat <<< 1074 := by
    rw [Nat.shiftLeft_eq]
    exact Nat.mul_pos (Nat.pow_pos (by norm_num)) (by positivity)
  generalize m.units * Nat.pow 10 (-e).toNat = num at hvalue ⊢
  generalize Nat.pow 10 e.toNat <<< 1074 = den at hvalue hden ⊢
  have hden' : (0 : Rat) < den := Nat.cast_pos.2 hden
  have hstep : (0 : Rat) < 10 ^ e := zpow_pos (by norm_num) _
  -- the value is the lower neighbour and `num % den` parts of a step
  have hlower : m.toRat - Decimal.toRat ⟨num / den, e⟩ = (num % den : Nat) / den * 10 ^ e := by
    have hsplit : (num : Rat) = (num / den : Nat) * den + (num % den : Nat) := by
      exact_mod_cast (Nat.div_add_mod' num den).symm
    rw [hvalue, Decimal.toRat, ← sub_mul, div_sub' hden'.ne']
    congr 2
    linarith
  have hupper : Decimal.toRat ⟨num / den + 1, e⟩ = Decimal.toRat ⟨num / den, e⟩ + 10 ^ e := by
    rw [Decimal.toRat, Decimal.toRat]
    push_cast
    ring
  have hrest : ((num % den : Nat) : Rat) / den < 1 := (div_lt_one hden').2 (Nat.cast_lt.2 (Nat.mod_lt _ hden))
  have hrest' : (0 : Rat) ≤ (num % den : Nat) / den := by positivity
  refine ⟨⟨num / den, e⟩, ⟨num / den + 1, e⟩, ⟨he.symm, rfl, ?_, ?_⟩, ?_⟩
  · nlinarith
  · nlinarith
  · split_ifs with hl hu hu
    · refine .inr (.inr ⟨rfl, fun _ => ?_⟩)
      have hfar : (1 : Rat) ≤ 2 * ((num % den : Nat) / den) := by
        rw [← mul_div_assoc, one_le_div hden']
        exact_mod_cast (by omega : den ≤ 2 * (num % den))
      nlinarith
    · refine .inr (.inl ⟨rfl, fun h => ?_⟩)
      have hu' := not_and.1 hu (ofDecimal_eq_iff.2 h)
      have hnear : 2 * ((num % den : Nat) / den) ≤ (1 : Rat) := by
        rw [← mul_div_assoc, div_le_one hden']
        exact_mod_cast (by omega : 2 * (num % den) ≤ den)
      nlinarith
    · exact .inr (.inr ⟨rfl, fun h => absurd (ofDecimal_eq_iff.2 h) hl⟩)
    · exact .inl ⟨rfl, fun h => hl (ofDecimal_eq_iff.2 h), fun h => hu (ofDecimal_eq_iff.2 h)⟩

variable (hzero : ¬m.isZero)
include hzero

/-- **No decimal with `n` digits is between the neighbours.** -/
theorem Neighbours.side {n : Nat} (hn : 0 < n) {lower upper : Decimal} (h : Neighbours m n lower upper) {c : Nat}
    (hc : c < 10 ^ n) (k : Int) : c * 10 ^ k ≤ lower.toRat ∨ upper.toRat ≤ c * 10 ^ k := by
  obtain ⟨a, e⟩ := lower
  obtain ⟨rfl, rfl, -, hhigh⟩ := h
  simp only [Decimal.toRat] at hhigh ⊢
  have hgrid : (0 : Rat) < 10 ^ (m.leadingExponent + 1 - n) := zpow_pos (by norm_num) _
  rcases lt_or_ge k (m.leadingExponent + 1 - n) with hfine | hcoarse
  · -- below the power of ten of the first digit, which the lower neighbour has too
    left
    have hleading : (10 : Rat) ^ m.leadingExponent = (10 ^ (n - 1) : Nat) * 10 ^ (m.leadingExponent + 1 - n) := by
      rw [Nat.cast_pow, Nat.cast_ofNat, ← zpow_natCast, ← zpow_add₀ (by norm_num)]
      congr 1
      omega
    have hfirst : 10 ^ (n - 1) ≤ a := by
      have hlt := lt_of_le_of_lt (leadingExponent_bounds hzero).1 hhigh
      rw [hleading, mul_lt_mul_iff_left₀ hgrid, Nat.cast_lt] at hlt
      omega
    calc (c * 10 ^ k : Rat) ≤ (10 ^ n : Nat) * 10 ^ k :=
          mul_le_mul_of_nonneg_right (Nat.cast_le.2 hc.le) (zpow_nonneg (by norm_num) _)
      _ = 10 ^ (n + k) := by rw [Nat.cast_pow, Nat.cast_ofNat, ← zpow_natCast, ← zpow_add₀ (by norm_num)]
      _ ≤ 10 ^ m.leadingExponent := zpow_le_zpow_right₀ (by norm_num) (by omega)
      _ ≤ a * 10 ^ (m.leadingExponent + 1 - n) := by
        rw [hleading]
        exact mul_le_mul_of_nonneg_right (Nat.cast_le.2 hfirst) hgrid.le
  · -- on the grid
    obtain ⟨j, hj⟩ : ∃ j : Nat, k = j + (m.leadingExponent + 1 - n) := ⟨(k - (m.leadingExponent + 1 - n)).toNat, by omega⟩
    have hvalue : (c * 10 ^ k : Rat) = (c * 10 ^ j : Nat) * 10 ^ (m.leadingExponent + 1 - n) := by
      rw [hj, zpow_add₀ (by norm_num), zpow_natCast]
      push_cast
      ring
    rw [hvalue, mul_le_mul_iff_left₀ hgrid, mul_le_mul_iff_left₀ hgrid, Nat.cast_le, Nat.cast_le]
    omega

theorem Neighbours.coefficient_lt {n : Nat} {lower upper : Decimal} (h : Neighbours m n lower upper) :
    lower.coefficient < 10 ^ n := by
  have hgrid : (0 : Rat) < 10 ^ (m.leadingExponent + 1 - n) := zpow_pos (by norm_num) _
  have hleading : (10 : Rat) ^ (m.leadingExponent + 1) = (10 ^ n : Nat) * 10 ^ (m.leadingExponent + 1 - n) := by
    rw [Nat.cast_pow, Nat.cast_ofNat, ← zpow_natCast, ← zpow_add₀ (by norm_num)]
    congr 1
    omega
  have hlt := lt_of_le_of_lt h.low (leadingExponent_bounds hzero).2
  rwa [hleading, Decimal.toRat, h.exponent, mul_lt_mul_iff_left₀ hgrid, Nat.cast_lt] at hlt

/-! ## As few digits as can be -/

/-- If a decimal with `n` digits rounds to the value, one is found. -/
theorem candidate?_ne_none {n c : Nat} (hc : c < 10 ^ n) {k : Int} (h : IsNearest (c * 10 ^ k) m) :
    0 < n ∧ m.candidate? n ≠ none := by
  have hpos := h.pos hzero (mul_nonneg (Nat.cast_nonneg _) (zpow_nonneg (by norm_num) _))
  have hn : 0 < n := by
    refine Nat.pos_of_ne_zero fun hnone => hpos.ne' ?_
    rw [hnone, pow_zero, Nat.lt_one_iff] at hc
    rw [hc, Nat.cast_zero, zero_mul]
  refine ⟨hn, ?_⟩
  obtain ⟨lower, upper, hneighbours, hcases⟩ := candidate?_cases m n
  have hself := isNearest_toRat m
  rcases hcases with ⟨-, hlower, hupper⟩ | ⟨hsome, -⟩ | ⟨hsome, -⟩
  · rcases hneighbours.side hzero hn hc k with hle | hge
    · exact absurd (h.between hself (hpos.le.trans hle) hle hneighbours.low) hlower
    · exact absurd (hself.between h (m.toRat_nonneg.trans hneighbours.high.le) hneighbours.high.le hge) hupper
  · simp [hsome]
  · simp [hsome]

/-- **Seventeen digits are enough.** -/
theorem candidate?_seventeen (hinfinite : ¬m.isInfinite) : m.candidate? 17 ≠ none := by
  obtain ⟨lower, upper, ⟨hexponent, hnext, hlow, hhigh⟩, hcases⟩ := candidate?_cases m 17
  rcases hcases with ⟨-, hlower, hupper⟩ | ⟨hsome, -⟩ | ⟨hsome, -⟩
  · -- a step of the grid is less than the `2^53`th part of the value
    have hleading := (leadingExponent_bounds hzero).1
    have hgrid : (10 : Rat) ^ m.leadingExponent = 10 ^ 16 * 10 ^ lower.exponent := by
      rw [hexponent, ← zpow_natCast, ← zpow_add₀ (by norm_num)]
      congr 1
      omega
    have hstep : upper.toRat = lower.toRat + 10 ^ lower.exponent := by
      rw [hnext, Decimal.toRat, Decimal.toRat]
      push_cast
      ring
    rw [hgrid] at hleading
    rcases le_total (m.toRat - lower.toRat) (upper.toRat - m.toRat) with hnear | hnear
    · refine absurd (isNearest_of_close hinfinite hzero ?_) hlower
      rw [abs_of_nonpos (by linarith)]
      linarith
    · refine absurd (isNearest_of_close hinfinite hzero ?_) hupper
      rw [abs_of_nonneg (by linarith)]
      linarith
  · simp [hsome]
  · simp [hsome]

/-- What is found is as near to the value as any decimal with so many digits that rounds to it. -/
theorem candidate?_closest {n : Nat} (hn : 0 < n) {d : Decimal} (h : m.candidate? n = some d) {c : Nat} (hc : c < 10 ^ n)
    {k : Int} (hk : IsNearest (c * 10 ^ k) m) : |m.toRat - d.toRat| ≤ |m.toRat - c * 10 ^ k| := by
  obtain ⟨lower, upper, hneighbours, hcases⟩ := candidate?_cases m n
  obtain ⟨-, -, hlow, hhigh⟩ := id hneighbours
  have hself := isNearest_toRat m
  have hnonneg : (0 : Rat) ≤ c * 10 ^ k := mul_nonneg (Nat.cast_nonneg _) (zpow_nonneg (by norm_num) _)
  have hlower : |m.toRat - lower.toRat| = m.toRat - lower.toRat := abs_of_nonneg (by linarith)
  have hupper : |m.toRat - upper.toRat| = upper.toRat - m.toRat := by rw [abs_sub_comm, abs_of_nonneg (by linarith)]
  rcases hneighbours.side hzero hn hc k with hle | hge
  · have hround : IsNearest lower.toRat m := hk.between hself (hnonneg.trans hle) hle hlow
    rw [abs_of_nonneg (sub_nonneg.2 (hle.trans hlow))]
    rcases hcases with ⟨hnone, -⟩ | ⟨hsome, -⟩ | ⟨hsome, hnear⟩
    · exact absurd h (by simp [hnone])
    · cases hsome.symm.trans h
      linarith
    · cases hsome.symm.trans h
      linarith [hnear hround]
  · have hround : IsNearest upper.toRat m := hself.between hk (m.toRat_nonneg.trans hhigh.le) hhigh.le hge
    rw [abs_sub_comm _ (c * 10 ^ k : Rat), abs_of_nonneg (sub_nonneg.2 (hhigh.le.trans hge))]
    rcases hcases with ⟨hnone, -⟩ | ⟨hsome, hnear⟩ | ⟨hsome, -⟩
    · exact absurd h (by simp [hnone])
    · cases hsome.symm.trans h
      linarith [hnear hround]
    · cases hsome.symm.trans h
      linarith

theorem coefficient_le_of_candidate? {n : Nat} {d : Decimal} (h : m.candidate? n = some d) : d.coefficient ≤ 10 ^ n := by
  obtain ⟨lower, upper, hneighbours, hcases⟩ := candidate?_cases m n
  have hlt := hneighbours.coefficient_lt hzero
  rcases hcases with ⟨hnone, -⟩ | ⟨hsome, -⟩ | ⟨hsome, -⟩
  · exact absurd h (by simp [hnone])
  · cases hsome.symm.trans h
    exact hlt.le
  · cases hsome.symm.trans h
    rw [hneighbours.next]
    exact hlt

/-- The shortest decimal is what is found for the first number of digits for which there is something. -/
theorem exists_candidate?_eq_shortest (hinfinite : ¬m.isInfinite) :
    ∃ n, 0 < n ∧ m.candidate? n = some m.shortest ∧ ∀ n', 0 < n' → m.candidate? n' ≠ none → n ≤ n' := by
  rw [shortest]
  cases h : (List.range' 1 17).findSome? m.candidate? with
  | none =>
    exact absurd (List.findSome?_eq_none_iff.1 h 17 (by simp)) (candidate?_seventeen hzero hinfinite)
  | some d =>
    obtain ⟨before, n, after, hsplit, hd, hnone⟩ := List.findSome?_eq_some_iff.1 h
    have hmem : n ∈ List.range' 1 17 := by simp [hsplit]
    rw [List.mem_range'_1] at hmem
    refine ⟨n, by omega, hd, fun n' hpos hn' => ?_⟩
    refine Nat.le_of_not_lt fun hlt => ?_
    -- what is smaller stands before it
    have hmem' : n' ∈ List.range' 1 17 := by
      rw [List.mem_range'_1]
      omega
    have hsorted := List.pairwise_lt_range' (s := 1) (n := 17)
    rw [hsplit] at hmem' hsorted
    rcases List.mem_append.1 hmem' with hbefore | hafter
    · exact hn' (hnone n' hbefore)
    · rcases List.mem_cons.1 hafter with rfl | hafter
      · exact lt_irrefl _ hlt
      · have := List.rel_of_pairwise_cons (List.pairwise_append.1 hsorted).2.1 hafter
        omega

end Magnitude

namespace Numeral

/-! ## The digits that are written -/

/-- The last digit that is kept is not zero. -/
theorem digitsValue_trimZeros_mod {ds : Bytes} (h : Lexeme.Digits ds) (hne : trimZeros ds ≠ []) :
    digitsValue 10 (trimZeros ds) % 10 ≠ 0 := by
  unfold trimZeros at hne ⊢
  cases hkept : ds.reverse.dropWhile (· == Byte.zero) with
  | nil =>
    rw [hkept] at hne
    exact absurd rfl hne
  | cons b rest =>
    have hb : b ≠ Byte.zero := by
      have hnot := List.head?_dropWhile_not (· == Byte.zero) ds.reverse
      rw [hkept] at hnot
      simpa using hnot
    have hdigit : Byte.isDigit b := by
      refine h b (List.mem_reverse.1 ((List.dropWhile_sublist (· == Byte.zero)).subset ?_))
      rw [hkept]
      exact List.mem_cons_self
    rw [isDigit_iff] at hdigit
    have hvalue : b.toNat ≠ 48 := fun heq => hb (UInt8.toNat_inj.1 heq)
    rw [List.reverse_cons, digitsValue_append, digitsValue_cons]
    simp only [digitsValue, List.foldl_nil, List.length_cons, List.length_nil]
    omega

/-- A power of ten has one digit that counts. -/
theorem length_trimZeros_le {c n : Nat} (hc : c ≠ 0) (hn : 0 < n) (hle : c ≤ 10 ^ n) :
    (trimZeros (decimal c)).length ≤ n := by
  have htrimmed := trimmed_decimal hc
  have hlow := htrimmed.le_digitsValue
  have hlast := digitsValue_trimZeros_mod (digits_decimal c) (List.length_pos_iff.1 htrimmed.length_pos)
  obtain ⟨k, hk⟩ := exists_trimZeros (decimal c)
  have hvalue := digitsValue_decimal c
  rw [hk, digitsValue_append, digitsValue_replicate, List.length_replicate, Nat.add_zero] at hvalue
  have hkept : digitsValue 10 (trimZeros (decimal c)) ≤ 10 ^ n :=
    (Nat.le_mul_of_pos_right _ (by positivity)).trans (hvalue.trans_le hle)
  have hlt : digitsValue 10 (trimZeros (decimal c)) < 10 ^ n := by
    refine lt_of_le_of_ne hkept fun heq => hlast ?_
    rw [heq, ← Nat.succ_pred_eq_of_pos hn, pow_succ, Nat.mul_mod_left]
  have := (Nat.pow_lt_pow_iff_right (by norm_num)).1 (lt_of_le_of_lt hlow hlt)
  omega

/-- The text of a value with the digits `ds`, of which the first one stands for the power `e` of ten: they round to the
value, no fewer digits do, and no decimal that is as short and rounds to the value is nearer to it. -/
structure IsShortest (m : Magnitude) (text ds : Bytes) (e : Int) : Prop where
  form : text = if e < -4 ∨ 6 ≤ e then scientific ds e else positional ds e
  trimmed : Trimmed ds
  spelled : ∃ p, Spelled p text ∧ p.Counted ∧ p.toRat = laidOut ds e
  rounds : Magnitude.IsNearest (laidOut ds e) m
  fewest : ∀ (n c : Nat) (k : Int), c < 10 ^ n → Magnitude.IsNearest (c * 10 ^ k) m → ds.length ≤ n
  closest : ∀ (c : Nat) (k : Int), c < 10 ^ ds.length → Magnitude.IsNearest (c * 10 ^ k) m →
    |m.toRat - laidOut ds e| ≤ |m.toRat - c * 10 ^ k|

/-- **What is written is the shortest text.** -/
theorem layout_isShortest {m : Magnitude} (hinfinite : ¬m.isInfinite) (hzero : ¬m.isZero) :
    ∃ ds e, IsShortest m (layout m) ds e := by
  obtain ⟨n, hn, hfound, hfirst⟩ := Magnitude.exists_candidate?_eq_shortest hzero hinfinite
  obtain ⟨p, hspelled, hcounted, hvalue⟩ := layout_spelled hinfinite hzero
  have hlaidOut := laidOut_trimZeros m.shortest.coefficient m.shortest.exponent
  rw [← Decimal.toRat] at hlaidOut
  have htrimmed := trimmed_shortest hzero
  have hlength : (trimZeros (decimal m.shortest.coefficient)).length ≤ n := by
    refine length_trimZeros_le (fun hnone => ?_) hn (Magnitude.coefficient_le_of_candidate? hzero hfound)
    have hpos := (Magnitude.shortest_isNearest m).pos hzero
    rw [Decimal.toRat, hnone, Nat.cast_zero, zero_mul] at hpos
    exact lt_irrefl _ (hpos le_rfl)
  refine ⟨_, _, rfl, htrimmed, ⟨p, hspelled, hcounted, hvalue.trans hlaidOut.symm⟩, ?_, fun n' c k hc hk => ?_,
    fun c k hc hk => ?_⟩
  · rw [hlaidOut]
    exact Magnitude.shortest_isNearest m
  · obtain ⟨hpos, hsome⟩ := Magnitude.candidate?_ne_none hzero hc hk
    exact hlength.trans (hfirst n' hpos hsome)
  · rw [hlaidOut]
    exact Magnitude.candidate?_closest hzero hn hfound (hc.trans_le (Nat.pow_le_pow_right (by norm_num) hlength)) hk

end Numeral

end ComplexFormula
