import ComplexFormula.Program.Evaluation
import ComplexFormula.Proofs.ValueTable.Basic

/-!
# The meaning of a table

A table is evaluated entry by entry, in its order: the first two entries are the components of the point, a constant is
what its text reads as, and an operation works on the values of its operands. Nothing else has a value, and an operand
that has none yet gives none (`evaluate`).

* `exists_evaluate`: a table all of whose entries are meaningful has values.
* `getElem?_evaluate`: every entry has the value that its operands' values give in the whole table, so later entries
  change nothing.
-/

namespace ComplexFormula

variable {K : Type}

/-- The value at any integer place. -/
def valueAt (known : Array K) (r : Ref) : Option K := if r < 0 then none else known[r.toNat]?

@[simp]
theorem valueAt_natCast (known : Array K) (i : Nat) : valueAt known i = known[i]? :=
  if_neg (Int.not_lt.2 (Int.natCast_nonneg i))

@[simp]
theorem valueAt_negSucc (known : Array K) (i : Nat) : valueAt known (.negSucc i) = none :=
  if_pos (Int.negSucc_lt_zero i)

/-- Every value of `known` is a value of `later`, at the same place. -/
def Agrees (known later : Array K) : Prop := ∀ (i : Nat) (k : K), known[i]? = some k → later[i]? = some k

theorem Agrees.refl (known : Array K) : Agrees known known := fun _ _ h => h

theorem Agrees.trans {known later last : Array K} (h : Agrees known later) (h' : Agrees later last) :
    Agrees known last := fun i k hk => h' i k (h i k hk)

theorem agrees_push (known : Array K) (k : K) : Agrees known (known.push k) := by
  intro i a ha
  have hlt := (Array.getElem?_eq_some_iff.1 ha).1
  rw [Array.getElem?_push, if_neg (by omega), ha]

theorem Agrees.valueAt {known later : Array K} (h : Agrees known later) {r : Ref} {k : K}
    (hk : valueAt known r = some k) : valueAt later r = some k := by
  cases r with
  | ofNat i => exact (valueAt_natCast later i).trans (h i k ((valueAt_natCast known i).symm.trans hk))
  | negSucc i => simp at hk

namespace Value

/-- An entry at the place `i` that has a value once the entries before it have theirs. -/
def MeaningfulAt (i : Nat) (v : Value) : Prop :=
  match v.kind with
  | .argument => i < 2
  | .constant => True
  | .binary => ∃ (op : Operator) (l r : Nat), v.symbol = op.symbol ∧ v.left = l ∧ v.right = r ∧ l < i ∧ r < i
  | .other _ => False

/-- The value of the entry at the place `i` from the values of others. -/
def value? (A : Arithmetic K) (x y : K) (i : Nat) (known : Array K) (v : Value) : Option K :=
  match v.kind with
  | .argument => #[x, y][i]?
  | .constant => some (A.constant v.text)
  | .binary => do
    let op ← Operator.ofSymbol? v.symbol
    let a ← valueAt known v.left
    let b ← valueAt known v.right
    some (A.operate op a b)
  | .other _ => none

variable {A : Arithmetic K} {x y : K}

theorem value?_binary {v : Value} {op : Operator} {known : Array K} {a b : K} (hk : v.kind = .binary)
    (hop : v.symbol = op.symbol) (ha : valueAt known v.left = some a) (hb : valueAt known v.right = some b) (i : Nat) :
    v.value? A x y i known = some (A.operate op a b) := by
  simp [value?, hk, hop, ha, hb]

/-- Knowing more values changes nothing. -/
theorem value?_mono {known later : Array K} (h : Agrees known later) {i : Nat} {v : Value} {k : K}
    (hv : v.value? A x y i known = some k) : v.value? A x y i later = some k := by
  unfold value? at hv ⊢
  split at hv
  · exact hv
  · exact hv
  · simp only [bind, Option.bind_eq_some_iff] at hv ⊢
    obtain ⟨op, hop, a, ha, b, hb, hk⟩ := hv
    exact ⟨op, hop, a, h.valueAt ha, b, h.valueAt hb, hk⟩
  · cases hv

theorem MeaningfulAt.exists_value? {known : Array K} {v : Value} (hv : v.MeaningfulAt known.size) :
    ∃ k, v.value? A x y known.size known = some k := by
  unfold MeaningfulAt at hv
  split at hv
  · rename_i hk
    exact ⟨#[x, y][known.size], by simp only [value?, hk]; exact Array.getElem?_eq_getElem hv⟩
  · rename_i hk
    exact ⟨A.constant v.text, by simp only [value?, hk]⟩
  · rename_i hk
    obtain ⟨op, l, r, hop, hl, hr, hlt, hrt⟩ := hv
    refine ⟨_, value?_binary hk hop (a := known[l]) (b := known[r]) ?_ ?_ _⟩
    · rw [hl, valueAt_natCast, Array.getElem?_eq_getElem hlt]
    · rw [hr, valueAt_natCast, Array.getElem?_eq_getElem hrt]
  · exact hv.elim

end Value

/-! ## Whole tables -/

namespace ValueTable

/-- Every entry is meaningful where it stands. -/
def Meaningful (t : ValueTable) : Prop := ∀ (i : Nat) (v : Value), t.values[i]? = some v → v.MeaningfulAt i

/-- The values known so far and that of the next entry. -/
def extendValues (A : Arithmetic K) (x y : K) (known : Array K) (v : Value) : Option (Array K) :=
  (v.value? A x y known.size known).map known.push

/-- The values of all entries at the point with components `x` and `y`. -/
def evaluate (A : Arithmetic K) (x y : K) (t : ValueTable) : Option (Array K) :=
  t.values.foldlM (extendValues A x y) #[]

variable {A : Arithmetic K} {x y : K} {t : ValueTable}

theorem evaluate_push {known : Array K} (ht : t.evaluate A x y = some known) {v : Value} {k : K}
    (hv : v.value? A x y known.size known = some k) : (t.push v).evaluate A x y = some (known.push k) := by
  unfold evaluate at ht ⊢
  rw [push, Array.foldlM_push, ht]
  simp [extendValues, hv]

/-- Evaluating further entries keeps what is known, and gives each its value from what is known in the end. -/
theorem foldlM_extendValues {entries : List Value} {known last : Array K}
    (h : entries.foldlM (extendValues A x y) known = some last) :
    last.size = known.size + entries.length ∧ Agrees known last ∧
      ∀ (j : Nat) (v : Value), entries[j]? = some v →
        ∃ k, last[known.size + j]? = some k ∧ v.value? A x y (known.size + j) last = some k := by
  induction entries generalizing known with
  | nil =>
    cases h
    exact ⟨rfl, Agrees.refl _, fun j v hv => by simp at hv⟩
  | cons w rest ih =>
    rw [List.foldlM_cons] at h
    obtain ⟨next, hnext, hrest⟩ := Option.bind_eq_some_iff.1 h
    obtain ⟨k, hk, rfl⟩ := Option.map_eq_some_iff.1 hnext
    obtain ⟨hsize, hagrees, hall⟩ := ih hrest
    rw [Array.size_push] at hsize hall
    have hkeep := (agrees_push known k).trans hagrees
    refine ⟨by rw [hsize, List.length_cons]; omega, hkeep, fun j v hv => ?_⟩
    cases j with
    | zero =>
      cases hv
      exact ⟨k, hagrees _ _ (by simp), Value.value?_mono hkeep hk⟩
    | succ j =>
      have hj := hall j v (by simpa using hv)
      rwa [show known.size + 1 + j = known.size + (j + 1) by omega] at hj

theorem exists_foldlM_extendValues {entries : List Value} {known : Array K}
    (h : ∀ (j : Nat) (v : Value), entries[j]? = some v → v.MeaningfulAt (known.size + j)) :
    ∃ last, entries.foldlM (extendValues A x y) known = some last := by
  induction entries generalizing known with
  | nil => exact ⟨known, rfl⟩
  | cons w rest ih =>
    obtain ⟨k, hk⟩ := (h 0 w rfl).exists_value? (A := A) (x := x) (y := y)
    have hstep : extendValues A x y known w = some (known.push k) := by
      rw [extendValues]
      exact Option.map_eq_some_iff.2 ⟨k, hk, rfl⟩
    have hrest : ∀ (j : Nat) (v : Value), rest[j]? = some v → v.MeaningfulAt ((known.push k).size + j) := by
      intro j v hv
      rw [Array.size_push, show known.size + 1 + j = known.size + (j + 1) by omega]
      exact h (j + 1) v (by simpa using hv)
    obtain ⟨last, hlast⟩ := ih hrest
    exact ⟨last, by rw [List.foldlM_cons, hstep]; exact hlast⟩

/-- A table of meaningful entries has values. -/
theorem exists_evaluate (ht : t.Meaningful) (A : Arithmetic K) (x y : K) : ∃ known, t.evaluate A x y = some known := by
  rw [evaluate, ← Array.foldlM_toList]
  apply exists_foldlM_extendValues
  intro j v hv
  rw [show (#[] : Array K).size + j = j by simp]
  exact ht j v (by simpa using hv)

theorem size_evaluate {known : Array K} (h : t.evaluate A x y = some known) : known.size = t.size := by
  rw [evaluate, ← Array.foldlM_toList] at h
  simpa [size] using (foldlM_extendValues h).1

/-- **The values solve the table**: each is what its entry says of the others. -/
theorem getElem?_evaluate {known : Array K} (h : t.evaluate A x y = some known) {i : Nat} {v : Value}
    (hv : t.values[i]? = some v) : ∃ k, known[i]? = some k ∧ v.value? A x y i known = some k := by
  rw [evaluate, ← Array.foldlM_toList] at h
  have := (foldlM_extendValues h).2.2 i v (by simpa using hv)
  simpa using this

end ValueTable

end ComplexFormula
