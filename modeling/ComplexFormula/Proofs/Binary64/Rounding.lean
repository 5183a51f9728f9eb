import ComplexFormula.Binary64.Shortest
import Mathlib

/-!
# Rounding is to the nearest value

A magnitude is *nearest* to a rational number if no other one is nearer, and if it is the even one of two that are equally
near (`Magnitude.IsNearest`). Infinity takes part in this with the value `2^1024`. There is one nearest magnitude
(`IsNearest.unique`), and `Magnitude.nearest` finds it (`nearest_isNearest`).

The values of the scale increase by powers of two that go up every `2^52` places (`unitsAt_succ`), and `indexBelow` finds
the two neighbours of a value on it (`unitsAt_indexBelow`). All numbers below are taken in units of `2^-1074` until the
last step.
-/

namespace ComplexFormula

/-! ## The scale -/

theorem unitsAt_eq (n : Nat) :
    unitsAt n = if n < 2 ^ 52 then n else (2 ^ 52 + n % 2 ^ 52) * 2 ^ (n / 2 ^ 52 - 1) := by
  simp only [unitsAt, Nat.shiftLeft_eq, Nat.shiftRight_eq_div_pow, Nat.one_mul]

/-- From one place to the next. -/
theorem unitsAt_succ (n : Nat) : unitsAt (n + 1) = unitsAt n + 2 ^ (n / 2 ^ 52 - 1) := by
  rw [unitsAt_eq, unitsAt_eq]
  by_cases hlow : n + 1 < 2 ^ 52
  · rw [if_pos hlow, if_pos (by omega), Nat.div_eq_of_lt (by omega), Nat.zero_sub, pow_zero]
  · by_cases hfirst : n < 2 ^ 52
    · obtain rfl : n = 2 ^ 52 - 1 := by omega
      decide
    · rw [if_neg hlow, if_neg hfirst]
      by_cases hwrap : n % 2 ^ 52 = 2 ^ 52 - 1
      · have hmod : (n + 1) % 2 ^ 52 = 0 := by omega
        have hdiv : (n + 1) / 2 ^ 52 - 1 = n / 2 ^ 52 - 1 + 1 := by omega
        rw [hmod, hdiv, hwrap, pow_succ]
        ring
      · have hmod : (n + 1) % 2 ^ 52 = n % 2 ^ 52 + 1 := by omega
        have hdiv : (n + 1) / 2 ^ 52 = n / 2 ^ 52 := by omega
        rw [hmod, hdiv]
        ring

theorem strictMono_unitsAt : StrictMono unitsAt := by
  refine strictMono_nat_of_lt_succ fun n => ?_
  rw [unitsAt_succ]
  exact Nat.lt_add_of_pos_right (by positivity)

theorem unitsAt_of_le {n : Nat} (h : n ≤ 2 ^ 53) : unitsAt n = n := by
  rw [unitsAt_eq]
  split
  · rfl
  · rcases Nat.lt_or_eq_of_le h with hlt | rfl
    · have hdiv : n / 2 ^ 52 = 1 := by omega
      rw [hdiv]
      omega
    · decide

/-- **The neighbours** of a value on the scale. -/
theorem unitsAt_indexBelow (t : Nat) : unitsAt (indexBelow t) ≤ t ∧ t < unitsAt (indexBelow t + 1) := by
  simp only [indexBelow, Nat.shiftLeft_eq, Nat.shiftRight_eq_div_pow, Nat.one_mul]
  by_cases hsmall : t < 2 ^ 53
  · rw [if_pos hsmall, unitsAt_of_le hsmall.le, unitsAt_of_le hsmall]
    omega
  · rw [if_neg hsmall]
    -- the leading bit of `t` is bit `k + 52`
    have hne : t ≠ 0 := by omega
    have hlog : 53 ≤ t.log2 := (Nat.le_log2 hne).2 (Nat.le_of_not_lt hsmall)
    obtain ⟨k, hk⟩ : ∃ k, t.log2 = k + 52 := ⟨t.log2 - 52, by omega⟩
    have hlow : 2 ^ 52 * 2 ^ k ≤ t := by
      rw [← pow_add, Nat.add_comm, ← hk]
      exact Nat.log2_self_le hne
    have hhigh : t < 2 ^ 53 * 2 ^ k := by
      rw [← pow_add, show 53 + k = t.log2 + 1 by omega]
      exact Nat.lt_log2_self
    have hpos : 0 < 2 ^ k := by positivity
    have hdivLow : 2 ^ 52 ≤ t / 2 ^ k := (Nat.le_div_iff_mul_le hpos).2 hlow
    have hdivHigh : t / 2 ^ k < 2 ^ 53 := (Nat.div_lt_iff_lt_mul hpos).2 hhigh
    rw [hk, Nat.add_sub_cancel]
    have hplace : k * 2 ^ 52 + t / 2 ^ k = (k + 1) * 2 ^ 52 + (t / 2 ^ k - 2 ^ 52) := by
      rw [Nat.succ_mul]
      omega
    have hdiv : (k * 2 ^ 52 + t / 2 ^ k) / 2 ^ 52 = k + 1 := by omega
    have hmod : (k * 2 ^ 52 + t / 2 ^ k) % 2 ^ 52 = t / 2 ^ k - 2 ^ 52 := by omega
    have hunits : unitsAt (k * 2 ^ 52 + t / 2 ^ k) = t / 2 ^ k * 2 ^ k := by
      rw [unitsAt_eq, if_neg (by omega), hdiv, hmod, Nat.add_sub_cancel, Nat.add_sub_cancel' hdivLow]
    rw [unitsAt_succ, hunits, hdiv, Nat.add_sub_cancel]
    have hsplit := Nat.div_add_mod' t (2 ^ k)
    have hrest := Nat.mod_lt t hpos
    omega

theorem unitsAt_infinityIndex : unitsAt infinityIndex = 2 ^ 2098 := by
  rw [infinityIndex, Nat.shiftLeft_eq, unitsAt_eq, if_neg (by norm_num), Nat.mul_mod_left, Nat.mul_div_cancel _ (by norm_num),
    Nat.add_zero, ← pow_add]

namespace Magnitude

variable {q : Rat} {m m' : Magnitude}

/-- The value of a magnitude. -/
def toRat (m : Magnitude) : Rat := m.units / 2 ^ 1074

theorem toRat_lt (h : m.index < m'.index) : m.toRat < m'.toRat := by
  have hunits : (m.units : Rat) < m'.units := Nat.cast_lt.2 (strictMono_unitsAt h)
  exact div_lt_div_of_pos_right hunits (by positivity)

theorem toRat_le (h : m.index ≤ m'.index) : m.toRat ≤ m'.toRat := by
  have hunits : (m.units : Rat) ≤ m'.units := Nat.cast_le.2 (strictMono_unitsAt.monotone h)
  exact div_le_div_of_nonneg_right hunits (by positivity)

theorem ext_index (h : m.index = m'.index) : m = m' := by
  cases m
  cases m'
  simp_all

theorem toRat_zero : zero.toRat = 0 := by
  have h : zero.units = 0 := by decide
  rw [toRat, h, Nat.cast_zero, zero_div]

theorem toRat_infinity : infinity.toRat = 2 ^ 1024 := by
  rw [toRat, units, infinity, unitsAt_infinityIndex, div_eq_iff (by positivity), ← pow_add, Nat.cast_pow, Nat.cast_ofNat]

/-! ## Nearest magnitudes -/

/-- No magnitude is nearer to `q`, and of two that are equally near this is the even one. -/
structure IsNearest (q : Rat) (m : Magnitude) : Prop where
  le : ∀ m' : Magnitude, |q - m.toRat| ≤ |q - m'.toRat|
  even : ∀ m' : Magnitude, m' ≠ m → |q - m'.toRat| = |q - m.toRat| → m.index % 2 = 0

/-- Two numbers that are equally far from a third have it in their middle. -/
theorem eq_middle {a b : Rat} (hab : a < b) (h : |q - a| = |q - b|) : q = (a + b) / 2 := by
  rcases abs_eq_abs.1 h with h | h
  · linarith
  · linarith

theorem IsNearest.not_lt (h : IsNearest q m) (h' : IsNearest q m') : ¬m.index < m'.index := by
  intro hlt
  have hvalue := toRat_lt hlt
  have htie : |q - m.toRat| = |q - m'.toRat| := le_antisymm (h.le m') (h'.le m)
  have hmiddle := eq_middle hvalue htie
  -- what lies between the two is nearer than both
  have hnext : m'.index = m.index + 1 := by
    refine Classical.byContradiction fun hne => ?_
    have hbetween : m.index + 1 < m'.index := by omega
    have hle : m.index + 1 ≤ infinityIndex := by
      have := m'.index_le
      omega
    have hlow : m.toRat < (⟨m.index + 1, hle⟩ : Magnitude).toRat := toRat_lt (Nat.lt_succ_self _)
    have hhigh : (⟨m.index + 1, hle⟩ : Magnitude).toRat < m'.toRat := toRat_lt hbetween
    have hnearest := h.le ⟨m.index + 1, hle⟩
    rw [hmiddle] at hnearest
    have hdistance : |(m.toRat + m'.toRat) / 2 - m.toRat| = (m'.toRat - m.toRat) / 2 := by
      rw [abs_of_pos (by linarith)]
      ring
    rw [hdistance] at hnearest
    rcases abs_cases ((m.toRat + m'.toRat) / 2 - (⟨m.index + 1, hle⟩ : Magnitude).toRat) with ⟨heq, -⟩ | ⟨heq, -⟩
    · linarith
    · linarith
  have hne : m' ≠ m := fun heq => by
    rw [heq] at hlt
    omega
  have heven := h.even m' hne htie.symm
  have heven' := h'.even m hne.symm htie
  omega

/-- **There is one nearest magnitude.** -/
theorem IsNearest.unique (h : IsNearest q m) (h' : IsNearest q m') : m = m' :=
  ext_index (Nat.le_antisymm (Nat.le_of_not_lt (h'.not_lt h)) (Nat.le_of_not_lt (h.not_lt h')))

/-- A value is nearest to itself. -/
theorem isNearest_toRat (m : Magnitude) : IsNearest m.toRat m where
  le m' := by
    rw [sub_self, abs_zero]
    exact abs_nonneg _
  even m' hne htie := by
    rw [sub_self, abs_zero, abs_eq_zero, sub_eq_zero] at htie
    rcases Nat.lt_or_gt_of_ne fun h => hne (ext_index h) with hlt | hgt
    · exact absurd htie (toRat_lt hlt).ne'
    · exact absurd htie (toRat_lt hgt).ne

/-- The lower one of two neighbours, where it is the nearer one. -/
theorem isNearest_lower {n : Nat} (hn : n < infinityIndex) (hlow : (⟨n, hn.le⟩ : Magnitude).toRat ≤ q)
    (hnear : q - (⟨n, hn.le⟩ : Magnitude).toRat < (⟨n + 1, hn⟩ : Magnitude).toRat - q ∨
      (q - (⟨n, hn.le⟩ : Magnitude).toRat = (⟨n + 1, hn⟩ : Magnitude).toRat - q ∧ n % 2 = 0)) :
    IsNearest q ⟨n, hn.le⟩ := by
  generalize hm : (⟨n, hn.le⟩ : Magnitude) = m at *
  have hindex : m.index = n := by rw [← hm]
  generalize hnext : (⟨n + 1, hn⟩ : Magnitude) = next at *
  have hindex' : next.index = n + 1 := by rw [← hnext]
  have hdistance : |q - m.toRat| = q - m.toRat := abs_of_nonneg (by linarith)
  refine ⟨fun m' => ?_, fun m' hne htie => ?_⟩
  · rw [hdistance]
    rcases le_or_gt m'.index n with hle | hgt
    · have hvalue : m'.toRat ≤ m.toRat := toRat_le (by omega)
      rw [abs_of_nonneg (by linarith)]
      linarith
    · have hvalue : next.toRat ≤ m'.toRat := toRat_le (by omega)
      rw [abs_sub_comm]
      refine le_trans ?_ (le_abs_self _)
      rcases hnear with hnear | ⟨hnear, -⟩ <;> linarith
  · rw [hdistance] at htie
    rcases Nat.lt_trichotomy m'.index n with hlt | heq | hgt
    · have hvalue : m'.toRat < m.toRat := toRat_lt (by omega)
      rw [abs_of_nonneg (by linarith)] at htie
      linarith
    · exact absurd (ext_index (by omega)) hne
    · have hvalue : next.toRat ≤ m'.toRat := toRat_le (by omega)
      rcases hnear with hnear | ⟨-, heven⟩
      · rw [abs_sub_comm] at htie
        have := le_abs_self (m'.toRat - q)
        linarith
      · rwa [hindex]

/-- The upper one of two neighbours, where the lower one is not the nearer one. -/
theorem isNearest_upper {n : Nat} (hn : n < infinityIndex) (hhigh : q ≤ (⟨n + 1, hn⟩ : Magnitude).toRat)
    (hnear : (⟨n + 1, hn⟩ : Magnitude).toRat - q < q - (⟨n, hn.le⟩ : Magnitude).toRat ∨
      ((⟨n + 1, hn⟩ : Magnitude).toRat - q = q - (⟨n, hn.le⟩ : Magnitude).toRat ∧ n % 2 = 1)) :
    IsNearest q ⟨n + 1, hn⟩ := by
  generalize hm : (⟨n, hn.le⟩ : Magnitude) = m at *
  have hindex : m.index = n := by rw [← hm]
  generalize hnext : (⟨n + 1, hn⟩ : Magnitude) = next at *
  have hindex' : next.index = n + 1 := by rw [← hnext]
  have hdistance : |q - next.toRat| = next.toRat - q := by rw [abs_sub_comm, abs_of_nonneg (by linarith)]
  refine ⟨fun m' => ?_, fun m' hne htie => ?_⟩
  · rw [hdistance]
    rcases le_or_gt m'.index n with hle | hgt
    · have hvalue : m'.toRat ≤ m.toRat := toRat_le (by omega)
      refine le_trans ?_ (le_abs_self _)
      rcases hnear with hnear | ⟨hnear, -⟩ <;> linarith
    · have hvalue : next.toRat ≤ m'.toRat := toRat_le (by omega)
      rw [abs_sub_comm, abs_of_nonneg (by linarith)]
      linarith
  · rw [hdistance] at htie
    rcases Nat.lt_trichotomy m'.index (n + 1) with hlt | heq | hgt
    · have hvalue : m'.toRat ≤ m.toRat := toRat_le (by omega)
      rcases hnear with hnear | ⟨-, hodd⟩
      · have := le_abs_self (q - m'.toRat)
        linarith
      · omega
    · exact absurd (ext_index (by omega)) hne
    · have hvalue : next.toRat < m'.toRat := toRat_lt (by omega)
      rw [abs_sub_comm, abs_of_nonneg (by linarith)] at htie
      linarith

theorem isNearest_infinity (h : infinity.toRat ≤ q) : IsNearest q infinity := by
  have hle : ∀ m' : Magnitude, m'.toRat ≤ infinity.toRat := fun m' => toRat_le m'.index_le
  have hdistance : |q - infinity.toRat| = q - infinity.toRat := abs_of_nonneg (by linarith)
  refine ⟨fun m' => ?_, fun _ _ _ => by decide⟩
  rw [hdistance, abs_of_nonneg (by linarith [hle m'])]
  linarith [hle m']

/-- On which side of the middle of `u` and `v` a quotient is. -/
theorem middle_iff (num : Nat) {den : Nat} (hden : 0 < den) (u v : Nat) :
    (2 * num < den * (u + v) ↔ (num : Rat) / den - u < v - num / den) ∧
      (2 * num = den * (u + v) ↔ (num : Rat) / den - u = v - num / den) := by
  have hden' : (0 : Rat) < den := Nat.cast_pos.2 hden
  have hnum : (num : Rat) / den * den = num := div_mul_cancel₀ _ hden'.ne'
  generalize (num : Rat) / den = x at hnum
  have hdouble : ((2 * num : Nat) : Rat) = den * (2 * x) := by
    rw [Nat.cast_mul, ← hnum]
    push_cast
    ring
  have hsum : ((den * (u + v) : Nat) : Rat) = den * (u + v) := by
    push_cast
    ring
  constructor
  · rw [← Nat.cast_lt (α := Rat), hdouble, hsum, mul_lt_mul_iff_right₀ hden']
    constructor <;> intro h <;> linarith
  · rw [← Nat.cast_inj (R := Rat), hdouble, hsum, mul_right_inj' hden'.ne']
    constructor <;> intro h <;> linarith

/-- **Rounding finds the nearest magnitude.** -/
theorem nearest_isNearest (num : Nat) {den : Nat} (hden : 0 < den) :
    IsNearest ((num : Rat) / den / 2 ^ 1074) (nearest num den) := by
  obtain ⟨hlow, hhigh⟩ := unitsAt_indexBelow (num / den)
  have hden' : (0 : Rat) < den := Nat.cast_pos.2 hden
  -- the same bounds for the exact quotient
  have hlow' : (unitsAt (indexBelow (num / den)) : Rat) ≤ num / den := by
    rw [le_div_iff₀ hden']
    exact_mod_cast (Nat.le_div_iff_mul_le hden).1 hlow
  have hhigh' : (num : Rat) / den < unitsAt (indexBelow (num / den) + 1) := by
    rw [div_lt_iff₀ hden']
    exact_mod_cast (Nat.div_lt_iff_lt_mul hden).1 hhigh
  unfold nearest
  generalize indexBelow (num / den) = n at hlow' hhigh'
  have hscale : ∀ a b : Rat, a / 2 ^ 1074 - b / 2 ^ 1074 = (a - b) / 2 ^ 1074 := fun a b => (sub_div a b _).symm
  by_cases hn : n < infinityIndex
  · rw [dif_pos hn]
    dsimp only
    obtain ⟨hless, htie⟩ := middle_iff num hden (unitsAt n) (unitsAt (n + 1))
    split
    · rename_i hnear
      refine isNearest_lower hn ?_ ?_
      · exact div_le_div_of_nonneg_right hlow' (by positivity)
      · simp only [toRat, units, hscale]
        rcases hnear with hnear | ⟨hnear, heven⟩
        · exact .inl (div_lt_div_of_pos_right (hless.1 hnear) (by positivity))
        · exact .inr ⟨by rw [htie.1 hnear], heven⟩
    · rename_i hfar
      have hnot : ¬((num : Rat) / den - unitsAt n < unitsAt (n + 1) - num / den) := fun h => hfar (.inl (hless.2 h))
      refine isNearest_upper hn ?_ ?_
      · exact div_le_div_of_nonneg_right hhigh'.le (by positivity)
      · simp only [toRat, units, hscale]
        rcases lt_or_eq_of_le (not_lt.1 hnot) with hlt | heq
        · exact .inl (div_lt_div_of_pos_right hlt (by positivity))
        · refine .inr ⟨by rw [heq], ?_⟩
          have hodd : ¬n % 2 = 0 := fun heven => hfar (.inr ⟨htie.2 heq.symm, heven⟩)
          omega
  · rw [dif_neg hn]
    apply isNearest_infinity
    have hunits : (unitsAt infinityIndex : Rat) ≤ unitsAt n := Nat.cast_le.2 (strictMono_unitsAt.monotone (by omega))
    exact div_le_div_of_nonneg_right (hunits.trans hlow') (by positivity)

/-- The nearest magnitude to a scaled coefficient. -/
theorem ofScaled_isNearest {base : Nat} (hbase : 0 < base) (coefficient : Nat) (exponent : Int) :
    IsNearest (coefficient * (base : Rat) ^ exponent) (ofScaled base coefficient exponent) := by
  have hbase' : (base : Rat) ≠ 0 := Nat.cast_ne_zero.2 hbase.ne'
  have hnearest := nearest_isNearest (coefficient <<< 1074 * base.pow exponent.toNat)
    (show 0 < base.pow (-exponent).toNat from Nat.pow_pos hbase)
  have hvalue : ((coefficient <<< 1074 * base.pow exponent.toNat : Nat) : Rat) / (base.pow (-exponent).toNat : Nat) /
      2 ^ 1074 = coefficient * (base : Rat) ^ exponent := by
    have hsplit : (base : Rat) ^ exponent = base ^ exponent.toNat / base ^ (-exponent).toNat := by
      rw [← zpow_natCast, ← zpow_natCast, ← zpow_sub₀ hbase']
      congr 1
      omega
    have hunit : (2 ^ 1074 : Rat) ≠ 0 := by positivity
    rw [hsplit, Nat.shiftLeft_eq, Nat.pow_eq, Nat.pow_eq, Nat.cast_mul, Nat.cast_mul, Nat.cast_pow, Nat.cast_pow,
      Nat.cast_pow, Nat.cast_ofNat]
    generalize (2 ^ 1074 : Rat) = unit at hunit
    field_simp
  rwa [hvalue] at hnearest

/-! ## Finite and non-zero magnitudes -/

theorem isInfinite_iff : m.isInfinite ↔ m = infinity := by
  rw [isInfinite, beq_iff_eq]
  exact ⟨fun h => ext_index h, fun h => by rw [h]; rfl⟩

theorem isZero_iff : m.isZero ↔ m = zero := by
  rw [isZero, beq_iff_eq]
  exact ⟨fun h => ext_index h, fun h => by rw [h]; rfl⟩

/-- What rounds to a finite value is below infinity. -/
theorem IsNearest.lt_infinity (h : IsNearest q m) (hm : ¬m.isInfinite) : q < 2 ^ 1024 := by
  refine lt_of_not_ge fun hle => hm (isInfinite_iff.2 (h.unique (isNearest_infinity ?_)))
  rwa [toRat_infinity]

/-- What does not round to zero is more than half the smallest value. -/
theorem IsNearest.gt_half (h : IsNearest q m) (hm : ¬m.isZero) (hq : 0 ≤ q) : (1 / 2 ^ 1075 : Rat) < q := by
  refine lt_of_not_ge fun hle => hm (isZero_iff.2 (h.unique ?_))
  have hpos : 0 < infinityIndex := by decide
  have hzero : (⟨0, hpos.le⟩ : Magnitude).toRat = 0 := toRat_zero
  have hone : (⟨0 + 1, hpos⟩ : Magnitude).toRat = 1 / 2 ^ 1074 := by
    have hunits : (⟨0 + 1, hpos⟩ : Magnitude).units = 1 := unitsAt_of_le (by norm_num)
    rw [toRat, hunits, Nat.cast_one]
  refine isNearest_lower hpos (by rwa [hzero]) ?_
  have hhalf : (1 / 2 ^ 1074 : Rat) = 2 * (1 / 2 ^ 1075) := by
    rw [pow_succ (2 : Rat) 1074]
    field_simp
  rw [hzero, hone, hhalf]
  generalize (1 / 2 ^ 1075 : Rat) = half at hle
  rcases lt_or_eq_of_le hle with hlt | heq
  · exact .inl (by linarith)
  · exact .inr ⟨by linarith, rfl⟩

theorem IsNearest.pos (h : IsNearest q m) (hm : ¬m.isZero) (hq : 0 ≤ q) : 0 < q :=
  lt_trans (one_div_pos.2 (pow_pos two_pos _)) (h.gt_half hm hq)

/-- The powers of ten below a number with a finite value. -/
theorem IsNearest.exponent_lt (h : IsNearest q m) (hm : ¬m.isInfinite) {e : Int} (he : 10 ^ e ≤ q) : e < 1024 := by
  have htwo : (2 : Rat) ^ 1024 ≤ 10 ^ (1024 : Int) := by
    rw [zpow_ofNat]
    exact pow_le_pow_left₀ (by norm_num) (by norm_num) _
  exact (zpow_lt_zpow_iff_right₀ (by norm_num)).1 (lt_of_le_of_lt he (lt_of_lt_of_le (h.lt_infinity hm) htwo))

/-- The powers of ten above a number with a non-zero value. -/
theorem IsNearest.lt_exponent (h : IsNearest q m) (hm : ¬m.isZero) (hq : 0 ≤ q) {e : Int} (he : q ≤ 10 ^ e) :
    -1075 < e := by
  have htwo : (10 : Rat) ^ (-1075 : Int) ≤ 1 / 2 ^ 1075 := by
    rw [zpow_neg, zpow_ofNat, ← one_div]
    exact one_div_le_one_div_of_le (pow_pos two_pos _) (pow_le_pow_left₀ (by norm_num) (by norm_num) _)
  exact (zpow_lt_zpow_iff_right₀ (by norm_num)).1 (lt_of_le_of_lt htwo (lt_of_lt_of_le (h.gt_half hm hq) he))

end Magnitude

/-! ## Decimals that read back -/

/-- The value of a decimal. -/
def Decimal.toRat (d : Decimal) : Rat := d.coefficient * 10 ^ d.exponent

namespace Magnitude

theorem ofDecimal_isNearest (d : Decimal) : IsNearest d.toRat (ofDecimal d) :=
  ofScaled_isNearest (by norm_num) d.coefficient d.exponent

theorem ofDecimal_exactDecimal (m : Magnitude) : ofDecimal m.exactDecimal = m := by
  have hvalue : m.exactDecimal.toRat = m.toRat := by
    have hten : (10 : Rat) ^ (-1074 : Int) = 1 / (2 ^ 1074 * 5 ^ 1074) := by
      rw [← mul_pow, zpow_neg, zpow_ofNat, one_div, show (2 * 5 : Rat) = 10 by norm_num]
    have htwo : (2 ^ 1074 : Rat) ≠ 0 := by positivity
    have hfive : (5 ^ 1074 : Rat) ≠ 0 := by positivity
    rw [Decimal.toRat, exactDecimal, toRat, hten, Nat.cast_mul, Nat.pow_eq, Nat.cast_pow, Nat.cast_ofNat]
    generalize (2 ^ 1074 : Rat) = two at htwo
    generalize (5 ^ 1074 : Rat) = five at hfive
    field_simp
  have hnearest := ofDecimal_isNearest m.exactDecimal
  rw [hvalue] at hnearest
  exact hnearest.unique (isNearest_toRat m)

theorem ofDecimal_of_candidate? {m : Magnitude} {digits : Nat} {d : Decimal} (h : m.candidate? digits = some d) :
    ofDecimal d = m := by
  simp only [candidate?] at h
  split_ifs at h with hlower hupper hupper
  · cases h
    exact hupper.1
  · cases h
    exact hlower
  · cases h
    exact hupper

/-- **The shortest decimal reads back.** -/
theorem ofDecimal_shortest (m : Magnitude) : ofDecimal m.shortest = m := by
  rw [shortest]
  cases h : (List.range' 1 17).findSome? m.candidate? with
  | none => exact ofDecimal_exactDecimal m
  | some d =>
    obtain ⟨digits, -, hd⟩ := List.exists_of_findSome?_eq_some h
    exact ofDecimal_of_candidate? hd

theorem shortest_isNearest (m : Magnitude) : IsNearest m.shortest.toRat m := by
  have hnearest := ofDecimal_isNearest m.shortest
  rwa [ofDecimal_shortest] at hnearest

end Magnitude

end ComplexFormula
