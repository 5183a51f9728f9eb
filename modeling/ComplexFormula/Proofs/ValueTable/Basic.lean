import ComplexFormula.Components

/-!
# What tables keep

Interning a value finds it, refuses it, or adds it at the end (`intern_cases`), and it is added only if the table does
not hold it yet and holds its operands. Such an addition keeps a table well-formed (`WellFormed.push`): the index and
the entries agree, operands stand before their operations, and the two components of the argument stand in front.
-/

namespace ComplexFormula.ValueTable

variable {t : ValueTable} {v : Value} {r : Ref}

/-! ## Places -/

section Places

@[simp]
theorem get?_natCast (t : ValueTable) (i : Nat) : t.get? i = t.values[i]? :=
  if_neg (Int.not_lt.2 (Int.natCast_nonneg i))

@[simp]
theorem get?_negSucc (t : ValueTable) (i : Nat) : t.get? (.negSucc i) = none := if_pos (Int.negSucc_lt_zero i)

/-- The places of entries are natural numbers. -/
theorem get?_eq_some_iff : t.get? r = some v ↔ ∃ i : Nat, r = i ∧ t.values[i]? = some v := by
  constructor
  · intro h
    cases r with
    | ofNat i => exact ⟨i, rfl, (t.get?_natCast i).symm.trans h⟩
    | negSucc i => simp at h
  · rintro ⟨i, rfl, hi⟩
    rw [get?_natCast, hi]

theorem holds_iff : t.holds r ↔ ∃ i : Nat, r = i ∧ i < t.size := by
  have hr : t.holds r ↔ (0 : Int) ≤ r ∧ r < (t.size : Int) := by simp [holds]
  rw [hr]
  constructor
  · rintro ⟨h₀, hlt⟩
    cases r with
    | ofNat i => exact ⟨i, rfl, Int.ofNat_lt.1 hlt⟩
    | negSucc i => exact absurd h₀ (Int.not_le.2 (Int.negSucc_lt_zero i))
  · rintro ⟨i, rfl, hi⟩
    exact ⟨Int.natCast_nonneg i, Int.ofNat_lt.2 hi⟩

@[simp]
theorem holds_natCast (t : ValueTable) (i : Nat) : t.holds i ↔ i < t.size := by
  rw [holds_iff]
  exact ⟨fun ⟨j, hj, hlt⟩ => Int.ofNat.inj hj ▸ hlt, fun h => ⟨i, rfl, h⟩⟩

theorem lt_size_of_getElem? {i : Nat} (h : t.values[i]? = some v) : i < t.size :=
  (Array.getElem?_eq_some_iff.1 h).1

theorem exists_get?_of_holds (h : t.holds r) : ∃ v, t.get? r = some v := by
  obtain ⟨i, rfl, hi⟩ := holds_iff.1 h
  exact ⟨t.values[i], by rw [get?_natCast]; exact Array.getElem?_eq_getElem hi⟩

theorem get_eq_ok (h : t.get? r = some v) : t.get r = .ok v := by
  rw [get, h]

@[simp]
theorem size_push (t : ValueTable) (v : Value) : (t.push v).size = t.size + 1 := by
  simp [size, push]

theorem values_push (t : ValueTable) (v : Value) (i : Nat) :
    (t.push v).values[i]? = if i = t.size then some v else t.values[i]? := by
  rw [push, size]
  exact Array.getElem?_push

theorem index_push (t : ValueTable) (v w : Value) :
    (t.push v).index[w]? = if v = w then some t.size else t.index[w]? := by
  simp only [push, Std.HashMap.getElem?_insert, beq_iff_eq]

end Places

/-! ## Interning -/

section Interning

/-- The table has the operands of a value. -/
def Admits (t : ValueTable) (v : Value) : Prop := v.kind = .binary → t.holds v.left ∧ t.holds v.right

/-- All that interning can do: find the value, refuse it, or add it at the end. -/
theorem intern_cases (v : Value) (t : ValueTable) :
    (∃ i, t.index[v]? = some i ∧ intern v t = (.ok (i : Ref), t)) ∨
    (t.index[v]? = none ∧ ¬t.Admits v ∧ intern v t = (.error (.detached v), t)) ∨
    (t.index[v]? = none ∧ t.Admits v ∧ intern v t = (.ok (t.size : Ref), t.push v)) := by
  unfold intern Admits
  cases hv : t.index[v]? with
  | some i => exact .inl ⟨i, rfl, rfl⟩
  | none =>
    by_cases h : v.kind = .binary ∧ ¬(t.holds v.left ∧ t.holds v.right)
    · exact .inr (.inl ⟨rfl, fun hadm => h.2 (hadm h.1), if_pos h⟩)
    · exact .inr (.inr ⟨rfl, fun hk => Classical.byContradiction fun hn => h ⟨hk, hn⟩, if_neg h⟩)

end Interning

/-! ## The invariant -/

section Invariant

structure WellFormed (t : ValueTable) : Prop where
  /-- The index knows the entries and nothing else. -/
  indexed : ∀ (v : Value) (i : Nat), t.index[v]? = some i ↔ t.values[i]? = some v
  operands : ∀ (i : Nat) (v : Value), t.values[i]? = some v → v.kind = .binary →
    ∃ l r : Nat, v.left = l ∧ v.right = r ∧ l < i ∧ r < i
  real : t.values[0]? = some (.argument (bytes "re"))
  imaginary : t.values[1]? = some (.argument (bytes "im"))

/-- Adding a value that is not there keeps the index in step with the entries. -/
theorem indexed_push (h : ∀ (v : Value) (i : Nat), t.index[v]? = some i ↔ t.values[i]? = some v)
    (hfresh : t.index[v]? = none)
    (w : Value) (i : Nat) : (t.push v).index[w]? = some i ↔ (t.push v).values[i]? = some w := by
  have hend : t.values[t.size]? = none := Array.getElem?_eq_none (Nat.le_refl _)
  have hnew : ∀ j : Nat, t.values[j]? ≠ some v := by
    intro j hj
    rw [(h v j).2 hj] at hfresh
    cases hfresh
  rw [index_push, values_push]
  by_cases hw : v = w <;> by_cases hi : i = t.size
  · simp [hw, hi]
  · subst hw
    simp only [↓reduceIte, Option.some.injEq, hi, hnew, iff_false]
    exact fun hsize => hi hsize.symm
  · simp [hw, hi, h, hend]
  · simp [hw, hi, h]

theorem WellFormed.two_le_size (h : t.WellFormed) : 2 ≤ t.size := (Array.getElem?_eq_some_iff.1 h.imaginary).1

theorem WellFormed.operands_lt (h : t.WellFormed) {i : Nat} (hv : t.values[i]? = some v) (hk : v.kind = .binary) :
    (0 ≤ v.left ∧ v.left < i) ∧ 0 ≤ v.right ∧ v.right < i := by
  obtain ⟨l, r, hl, hr, hlt, hrt⟩ := h.operands i v hv hk
  rw [hl, hr]
  exact ⟨⟨Int.natCast_nonneg l, Int.ofNat_lt.2 hlt⟩, Int.natCast_nonneg r, Int.ofNat_lt.2 hrt⟩

theorem WellFormed.push (h : t.WellFormed) (hfresh : t.index[v]? = none) (hadm : t.Admits v) :
    (t.push v).WellFormed where
  indexed := indexed_push h.indexed hfresh
  operands i w hw hk := by
    rw [values_push] at hw
    split at hw
    · rename_i hi
      cases hw
      obtain ⟨hl, hr⟩ := hadm hk
      obtain ⟨l, hl, hlt⟩ := holds_iff.1 hl
      obtain ⟨r, hr, hrt⟩ := holds_iff.1 hr
      exact ⟨l, r, hl, hr, hi ▸ hlt, hi ▸ hrt⟩
    · exact h.operands i w hw hk
  real := by
    have := h.two_le_size
    rw [values_push, if_neg (by omega), h.real]
  imaginary := by
    have := h.two_le_size
    rw [values_push, if_neg (by omega), h.imaginary]

theorem wellFormed_new : new.WellFormed where
  indexed := by
    have hbare : ∀ (v : Value) (i : Nat), bare.index[v]? = some i ↔ bare.values[i]? = some v := by
      intro v i
      simp [bare]
    refine indexed_push (indexed_push hbare ?_) ?_
    · simp [bare]
    · rw [index_push, if_neg (by decide)]
      simp [bare]
  operands i v hv hk := by
    have hargument : v.kind = .argument := by
      simp only [new, values_push, size_push] at hv
      split at hv
      · cases hv
        rfl
      · split at hv
        · cases hv
          rfl
        · simp [bare] at hv
    rw [hargument] at hk
    cases hk
  real := rfl
  imaginary := rfl

theorem WellFormed.record (h : t.WellFormed) (on : Bool) : (t.record on).WellFormed where
  indexed := h.indexed
  operands := h.operands
  real := h.real
  imaginary := h.imaginary

end Invariant

end ComplexFormula.ValueTable
