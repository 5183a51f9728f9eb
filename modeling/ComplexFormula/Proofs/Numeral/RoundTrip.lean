import ComplexFormula.Numeral.Writer
import ComplexFormula.Proofs.Numeral.Decimal
import Mathlib

/-!
# Numerals read back

The text of a finite non-zero value is a number whose exact value is the shortest decimal of it, however the digits are
laid out (`layout_spelled`). So it is read as the value it was written for, and so are the texts of zeros, infinities and
NaN (`read_write`).
-/

namespace ComplexFormula

open Lexeme

/-! ## Decimal digits -/

theorem toNat_digit {n : Nat} (h : n < 10) : (UInt8.ofNat (48 + n)).toNat = 48 + n := by
  rw [UInt8.toNat_ofNat']
  omega

theorem digits_decimal (n : Nat) : Digits (decimal n) := by
  fun_induction decimal n with
  | case1 n h =>
    intro b hb
    rw [List.mem_singleton.1 hb, isDigit_iff, toNat_digit h]
    omega
  | case2 n h ih =>
    intro b hb
    rcases List.mem_append.1 hb with hb | hb
    · exact ih b hb
    · rw [List.mem_singleton.1 hb, isDigit_iff, toNat_digit (Nat.mod_lt _ (by norm_num))]
      omega

theorem digitsValue_decimal (n : Nat) : digitsValue 10 (decimal n) = n := by
  fun_induction decimal n with
  | case1 n h =>
    rw [digitsValue_cons, toNat_digit h]
    simp [digitsValue]
  | case2 n h ih =>
    rw [digitsValue_append, ih, digitsValue_cons, toNat_digit (Nat.mod_lt _ (by norm_num))]
    simp only [digitsValue, List.foldl_nil, List.length_cons, List.length_nil]
    omega

theorem decimal_ne_nil (n : Nat) : decimal n ≠ [] := by
  rw [decimal]
  split <;> simp

/-- A number other than zero does not begin with the digit zero. -/
theorem head_decimal {n : Nat} (hn : n ≠ 0) : ∃ d ds, decimal n = d :: ds ∧ d ≠ Byte.zero := by
  fun_induction decimal n with
  | case1 n h =>
    refine ⟨_, [], rfl, fun heq => hn ?_⟩
    have hvalue := congrArg UInt8.toNat heq
    rw [toNat_digit h] at hvalue
    exact Nat.add_left_cancel (hvalue.trans rfl)
  | case2 n h ih =>
    obtain ⟨d, ds, heq, hd⟩ := ih (by omega)
    exact ⟨d, ds ++ _, by rw [heq]; rfl, hd⟩

namespace Numeral

/-- What is trimmed are zeros. -/
theorem exists_trimZeros (ds : Bytes) : ∃ k, ds = trimZeros ds ++ List.replicate k Byte.zero := by
  refine ⟨(ds.reverse.takeWhile (· == Byte.zero)).length, ?_⟩
  have hzeros : ds.reverse.takeWhile (· == Byte.zero) =
      List.replicate (ds.reverse.takeWhile (· == Byte.zero)).length Byte.zero := by
    rw [List.eq_replicate_iff]
    refine ⟨rfl, fun b hb => ?_⟩
    have hall := List.all_eq_true.1 (List.all_takeWhile (p := (· == Byte.zero)) (l := ds.reverse)) b hb
    simpa using hall
  have hsplit := congrArg List.reverse (List.takeWhile_append_dropWhile (p := (· == Byte.zero)) (l := ds.reverse))
  rw [List.reverse_append, List.reverse_reverse, hzeros, List.reverse_replicate] at hsplit
  exact hsplit.symm

/-- Zeros in front do not count. -/
theorem digitsValue_zeros_append (k : Nat) (ds : Bytes) :
    digitsValue 10 (List.replicate k Byte.zero ++ ds) = digitsValue 10 ds := by
  rw [digitsValue_append, digitsValue_replicate, Nat.zero_mul, Nat.zero_add]

/-- Digits of which the first one is not zero. -/
structure Trimmed (ds : Bytes) : Prop where
  digits : Lexeme.Digits ds
  head : ∃ d rest, ds = d :: rest ∧ d ≠ Byte.zero

theorem Trimmed.length_pos {ds : Bytes} (h : Trimmed ds) : 0 < ds.length := by
  obtain ⟨d, rest, rfl, -⟩ := h.head
  exact Nat.succ_pos _

/-- Leading digits are not zero. -/
theorem Trimmed.le_digitsValue {ds : Bytes} (h : Trimmed ds) : 10 ^ (ds.length - 1) ≤ digitsValue 10 ds := by
  obtain ⟨d, rest, rfl, hd⟩ := h.head
  have hdigit := isDigit_iff.1 (h.digits d List.mem_cons_self)
  have hne : d.toNat ≠ 48 := fun heq => hd (UInt8.toNat_inj.1 heq)
  rw [digitsValue_cons, List.length_cons, Nat.add_sub_cancel]
  have hfirst : 1 * 10 ^ rest.length ≤ (d.toNat - 48) * 10 ^ rest.length := Nat.mul_le_mul_right _ (by omega)
  omega

theorem trimmed_decimal {n : Nat} (hn : n ≠ 0) : Trimmed (trimZeros (decimal n)) := by
  obtain ⟨k, hk⟩ := exists_trimZeros (decimal n)
  obtain ⟨d, ds, heq, hd⟩ := head_decimal hn
  have hdigits : Lexeme.Digits (trimZeros (decimal n)) := by
    intro b hb
    refine digits_decimal n b ?_
    rw [hk]
    exact List.mem_append_left _ hb
  refine ⟨hdigits, ?_⟩
  cases htrim : trimZeros (decimal n) with
  | nil =>
    rw [htrim, heq, List.nil_append] at hk
    cases k with
    | zero => cases hk
    | succ k =>
      rw [List.replicate_succ] at hk
      exact absurd (List.cons.inj hk).1 hd
  | cons d' ds' =>
    rw [htrim, heq, List.cons_append] at hk
    obtain ⟨rfl, -⟩ := List.cons.inj hk
    exact ⟨d, ds', rfl, hd⟩

/-! ## Layouts -/

/-- The parts of a number in scientific notation. -/
def scientificParts (ds : Bytes) (exponent : Int) : Parts where
  whole := ds.take 1
  fraction := ds.drop 1
  negative := exponent < 0
  power := if (decimal exponent.natAbs).length < 2 then Byte.zero :: decimal exponent.natAbs else decimal exponent.natAbs

theorem digitsValue_scientificPower (ds : Bytes) (exponent : Int) :
    digitsValue 10 (scientificParts ds exponent).power = exponent.natAbs := by
  unfold scientificParts
  split
  · exact (digitsValue_zeros_append 1 _).trans (digitsValue_decimal _)
  · exact digitsValue_decimal _

theorem exponent_scientificParts (ds : Bytes) (exponent : Int) : (scientificParts ds exponent).exponent = exponent := by
  rw [Parts.exponent, digitsValue_scientificPower]
  simp only [scientificParts, decide_eq_true_eq]
  split <;> omega

theorem spelled_scientific {ds : Bytes} (h : Trimmed ds) (exponent : Int) :
    Spelled (scientificParts ds exponent) (scientific ds exponent) := by
  have hexponent : ExponentOf (scientificParts ds exponent)
      ([Byte.letterE, if exponent < 0 then Byte.minus else Byte.plus] ++ (scientificParts ds exponent).power) := by
    have hdigits : Lexeme.Digits (scientificParts ds exponent).power := by
      unfold scientificParts
      split
      · intro b hb
        rcases List.mem_cons.1 hb with rfl | hb
        · rfl
        · exact digits_decimal _ b hb
      · exact digits_decimal _
    have hne : (scientificParts ds exponent).power ≠ [] := by
      unfold scientificParts
      split
      · exact List.cons_ne_nil _ _
      · exact decimal_ne_nil _
    have hsign : [if exponent < 0 then Byte.minus else Byte.plus] = signOf (scientificParts ds exponent).negative ∨
        (scientificParts ds exponent).negative = false ∧
          [if exponent < 0 then Byte.minus else Byte.plus] = [Byte.plus] := by
      by_cases hneg : exponent < 0
      · left
        simp [scientificParts, signOf, hneg]
      · right
        simp [scientificParts, hneg]
    exact .present (.inl rfl) hsign hdigits hne
  have hmantissa : MantissaOf (scientificParts ds exponent)
      (ds.take 1 ++ if ds.drop 1 = [] then [] else Byte.point :: ds.drop 1) := by
    have hwhole : Lexeme.Digits (ds.take 1) := fun b hb => h.digits b (List.mem_of_mem_take hb)
    have hfraction : Lexeme.Digits (ds.drop 1) := fun b hb => h.digits b (List.mem_of_mem_drop hb)
    have hne : ds.take 1 ≠ [] := by
      obtain ⟨d, rest, rfl, -⟩ := h.head
      simp
    split
    · rename_i hnone
      rw [List.append_nil]
      exact .whole hwhole hne hnone
    · exact .point hwhole hfraction (.inl hne)
  have hspelled := Spelled.mk hmantissa hexponent
  simpa [scientific, scientificParts] using hspelled

/-- The parts of a number in positional notation. -/
def positionalParts (ds : Bytes) (exponent : Int) : Parts :=
  if exponent < 0 then ⟨[Byte.zero], List.replicate (exponent.natAbs - 1) Byte.zero ++ ds, false, []⟩
  else
    let whole := exponent.toNat + 1
    ⟨ds.take whole ++ List.replicate (whole - ds.length) Byte.zero, ds.drop whole, false, []⟩

theorem digits_replicate (n : Nat) : Lexeme.Digits (List.replicate n Byte.zero) := by
  intro b hb
  rw [List.eq_of_mem_replicate hb]
  rfl

theorem spelled_positional {ds : Bytes} (h : Trimmed ds) (exponent : Int) :
    Spelled (positionalParts ds exponent) (positional ds exponent) := by
  have habsent : ∀ {p : Parts}, p.negative = false → p.power = [] → ExponentOf p [] := .absent
  unfold positional positionalParts
  split
  · have hmantissa := MantissaOf.point (p := ⟨[Byte.zero], List.replicate (exponent.natAbs - 1) Byte.zero ++ ds, false, []⟩)
      (digits_replicate 1) ((digits_replicate _).append h.digits) (.inl (by simp))
    have hspelled := Spelled.mk hmantissa (habsent rfl rfl)
    have hpoint : bytes "0." = [Byte.zero, Byte.point] := by decide
    simpa [hpoint] using hspelled
  · have hwhole : Lexeme.Digits (ds.take (exponent.toNat + 1) ++
        List.replicate (exponent.toNat + 1 - ds.length) Byte.zero) :=
      Lexeme.Digits.append (fun b hb => h.digits b (List.mem_of_mem_take hb)) (digits_replicate _)
    have hfraction : Lexeme.Digits (ds.drop (exponent.toNat + 1)) := fun b hb => h.digits b (List.mem_of_mem_drop hb)
    have hne : ds.take (exponent.toNat + 1) ++ List.replicate (exponent.toNat + 1 - ds.length) Byte.zero ≠ [] := by
      obtain ⟨d, rest, rfl, -⟩ := h.head
      simp
    dsimp only
    split
    · rename_i hnone
      have hspelled := Spelled.mk (MantissaOf.whole (p := ⟨_, ds.drop (exponent.toNat + 1), false, []⟩) hwhole hne hnone)
        (habsent rfl rfl)
      simpa using hspelled
    · have hspelled := Spelled.mk (MantissaOf.point (p := ⟨_, ds.drop (exponent.toNat + 1), false, []⟩) hwhole hfraction
        (.inl hne)) (habsent rfl rfl)
      simpa using hspelled

/-! ## Values of layouts -/

/-- The value of digits of which the first one stands for the given power of ten. -/
def laidOut (ds : Bytes) (exponent : Int) : Rat := digitsValue 10 ds * 10 ^ (exponent + 1 - ds.length)

theorem toRat_scientificParts {ds : Bytes} (h : Trimmed ds) (exponent : Int) :
    (scientificParts ds exponent).toRat = laidOut ds exponent := by
  have hpos := h.length_pos
  rw [Parts.toRat, Parts.coefficient, exponent_scientificParts, laidOut]
  simp only [scientificParts, List.take_append_drop, List.length_drop]
  congr 2
  omega

theorem toRat_positionalParts (ds : Bytes) (exponent : Int) :
    (positionalParts ds exponent).toRat = laidOut ds exponent := by
  have hnone : ((digitsValue 10 [] : Nat) : Int) = 0 := rfl
  unfold positionalParts
  split
  · have hzeros := digitsValue_zeros_append (1 + (exponent.natAbs - 1)) ds
    rw [List.replicate_add, List.append_assoc] at hzeros
    simp only [Parts.toRat, Parts.coefficient, Parts.exponent, laidOut, Bool.false_eq_true, if_false, hnone,
      List.length_append, List.length_replicate]
    rw [show [Byte.zero] = List.replicate 1 Byte.zero from rfl, hzeros]
    congr 2
    omega
  · simp only [Parts.toRat, Parts.coefficient, Parts.exponent, laidOut, Bool.false_eq_true, if_false, hnone]
    rcases Nat.le_total ds.length (exponent.toNat + 1) with hle | hle
    · -- all digits stand before the point
      have hpower : (10 : Rat) ^ (exponent + 1 - ds.length) = 10 ^ (exponent.toNat + 1 - ds.length) := by
        rw [← zpow_natCast]
        congr 1
        omega
      rw [List.take_of_length_le hle, List.drop_of_length_le hle, List.append_nil, digitsValue_append,
        digitsValue_replicate, List.length_replicate, hpower]
      simp
    · rw [Nat.sub_eq_zero_of_le hle, List.replicate_zero, List.append_nil, List.take_append_drop, List.length_drop]
      congr 2
      omega

theorem laidOut_trimZeros (c : Nat) (e : Int) :
    laidOut (trimZeros (decimal c)) (e + (decimal c).length - 1) = c * 10 ^ e := by
  obtain ⟨k, hk⟩ := exists_trimZeros (decimal c)
  have hvalue := digitsValue_decimal c
  have hlength := congrArg List.length hk
  rw [hk, digitsValue_append, digitsValue_replicate, List.length_replicate, Nat.add_zero] at hvalue
  rw [List.length_append, List.length_replicate] at hlength
  have hexponent : e + (decimal c).length - 1 + 1 - (trimZeros (decimal c)).length = k + e := by omega
  rw [laidOut, hexponent, zpow_add₀ (by norm_num), zpow_natCast, ← mul_assoc]
  congr 1
  exact_mod_cast hvalue

/-- The first digit says between which powers of ten the value lies. -/
theorem Trimmed.le_laidOut {ds : Bytes} (h : Trimmed ds) (exponent : Int) :
    10 ^ exponent ≤ laidOut ds exponent ∧ laidOut ds exponent ≤ 10 ^ (exponent + 1) := by
  have hpos := h.length_pos
  have hpower : (0 : Rat) < 10 ^ (exponent + 1 - ds.length) := zpow_pos (by norm_num) _
  constructor
  · have hsplit : (10 : Rat) ^ exponent = 10 ^ (ds.length - 1) * 10 ^ (exponent + 1 - ds.length) := by
      rw [← zpow_natCast, ← zpow_add₀ (by norm_num)]
      congr 1
      omega
    rw [hsplit, laidOut]
    exact mul_le_mul_of_nonneg_right (by exact_mod_cast h.le_digitsValue) hpower.le
  · have hsplit : (10 : Rat) ^ (exponent + 1) = 10 ^ ds.length * 10 ^ (exponent + 1 - ds.length) := by
      rw [← zpow_natCast, ← zpow_add₀ (by norm_num)]
      congr 1
      omega
    rw [hsplit, laidOut]
    exact mul_le_mul_of_nonneg_right (by exact_mod_cast (digitsValue_lt h.digits).le) hpower.le

theorem counted_scientificParts {ds : Bytes} (h : Trimmed ds) {exponent : Int} (hsmall : exponent.natAbs < 10000) :
    (scientificParts ds exponent).Counted := by
  constructor
  · have hvalue := digitsValue_scientificPower ds exponent
    rcases exponentValue_cases (spelled_scientific h exponent).digits.2.2.1 with heq | ⟨hlarge, hle, -⟩
    · exact heq
    · omega
  · refine Parts.uncounted_eq_zero (le_trans (List.length_take_le 1 ds) (by norm_num))

theorem counted_positionalParts (ds : Bytes) {exponent : Int} (hsmall : exponent < 6) :
    (positionalParts ds exponent).Counted := by
  unfold positionalParts
  split
  · exact ⟨rfl, Parts.uncounted_eq_zero (by norm_num)⟩
  · refine ⟨rfl, Parts.uncounted_eq_zero ?_⟩
    simp only [List.length_append, List.length_take, List.length_replicate]
    omega

/-! ## Reading back -/

/-- The digits of a value, and the power of ten that the first one stands for. -/
theorem trimmed_shortest {m : Magnitude} (hzero : ¬m.isZero) : Trimmed (trimZeros (decimal m.shortest.coefficient)) := by
  refine trimmed_decimal fun hnone => ?_
  have hpos := (Magnitude.shortest_isNearest m).pos hzero
  rw [Decimal.toRat, hnone, Nat.cast_zero, zero_mul] at hpos
  exact lt_irrefl _ (hpos le_rfl)

/-- **The layout of a value is a number**, whose exact value is the shortest decimal. -/
theorem layout_spelled {m : Magnitude} (hinfinite : ¬m.isInfinite) (hzero : ¬m.isZero) :
    ∃ p, Spelled p (layout m) ∧ p.Counted ∧ p.toRat = m.shortest.toRat := by
  have htrimmed := trimmed_shortest hzero
  have hnearest := Magnitude.shortest_isNearest m
  have hvalue := laidOut_trimZeros m.shortest.coefficient m.shortest.exponent
  dsimp only [layout]
  generalize m.shortest.exponent + (decimal m.shortest.coefficient).length - 1 = exponent at hvalue ⊢
  rw [← Decimal.toRat] at hvalue
  obtain ⟨hlow, hhigh⟩ := htrimmed.le_laidOut exponent
  rw [hvalue] at hlow hhigh
  have hlt := hnearest.exponent_lt hinfinite hlow
  have hgt := hnearest.lt_exponent hzero (le_trans (zpow_nonneg (by norm_num) _) hlow) hhigh
  split
  · refine ⟨_, spelled_scientific htrimmed exponent, counted_scientificParts htrimmed (by omega), ?_⟩
    rw [toRat_scientificParts htrimmed, hvalue]
  · refine ⟨_, spelled_positional htrimmed exponent, counted_positionalParts _ (by omega), ?_⟩
    rw [toRat_positionalParts, hvalue]

theorem head_scientific (d : UInt8) (ds : Bytes) (exponent : Int) :
    (scientific (d :: ds) exponent).head? = some d := by
  simp [scientific]

theorem head_positional (d : UInt8) (ds : Bytes) {exponent : Int} (h : ¬exponent < 0) :
    (positional (d :: ds) exponent).head? = some d := by
  simp [positional, h]

/-- A layout begins with a zero only if a point follows. -/
theorem layout_head {m : Magnitude} (hzero : ¬m.isZero) (hhead : (layout m).head? = some Byte.zero) :
    Byte.point ∈ layout m := by
  obtain ⟨d, rest, htrim, hd⟩ := (trimmed_shortest hzero).head
  dsimp only [layout] at hhead ⊢
  generalize m.shortest.exponent + (decimal m.shortest.coefficient).length - 1 = exponent at hhead ⊢
  rw [htrim] at hhead ⊢
  by_cases hscientific : exponent < -4 ∨ 6 ≤ exponent
  · rw [if_pos hscientific, head_scientific] at hhead
    exact absurd (Option.some.inj hhead) hd
  · rw [if_neg hscientific] at hhead ⊢
    by_cases hneg : exponent < 0
    · rw [positional, if_pos hneg]
      exact List.mem_append_left _ (List.mem_append_left _ (by decide))
    · rw [head_positional d rest hneg] at hhead
      exact absurd (Option.some.inj hhead) hd

theorem write_eq {m : Magnitude} (hinfinite : ¬m.isInfinite) (hzero : ¬m.isZero) (negative : Bool) :
    write (.number negative m) = signOf negative ++ layout m := by
  rw [write, if_neg hinfinite, if_neg hzero, ← signOf]

/-- **What is written reads back.** -/
theorem read_write (v : Binary64) : read (write v) = v := by
  cases v with
  | nan => decide +kernel
  | number negative m =>
    by_cases hinfinite : m.isInfinite
    · rw [write, if_pos hinfinite, Magnitude.isInfinite_iff.1 hinfinite]
      cases negative <;> decide +kernel
    · by_cases hzero : m.isZero
      · rw [write, if_neg hinfinite, if_pos hzero, Magnitude.isZero_iff.1 hzero]
        cases negative <;> decide +kernel
      · obtain ⟨p, hspelled, hcounted, hvalue⟩ := layout_spelled hinfinite hzero
        obtain ⟨m', hread, hnearest⟩ := hspelled.read_isNearest hcounted negative
        rw [hvalue] at hnearest
        rw [write_eq hinfinite hzero, hread, hnearest.unique (Magnitude.shortest_isNearest m)]

end Numeral

end ComplexFormula
