import ComplexFormula.Proofs.ValueTable.Runs
import ComplexFormula.Proofs.ValueTable.Simplification
import Mathlib

/-!
# Single calls

One call interns a value, interns a constant or operates on two places. Whatever it is asked for, a call adds one entry
at the end or leaves the table as it is (`perform_cases`), and it answers with a place of the table if its operands
are places of the table (`operate_of_holds`). With the invariant of runs this says all that later stages rely on.

The index is a shortcut: interning answers as if it looked through all entries (`intern_eq_internByScan`).
-/

namespace ComplexFormula.ValueTable

variable {t : ValueTable} {v : Value} {a b : Ref}

/-! ## Looking through the entries -/

section Scanning

/-- Interning without an index. -/
def internByScan (v : Value) : Build ValueTable TableFault Ref := fun t =>
  match t.values.toList.idxOf? v with
  | some i => (.ok i, t)
  | none =>
    if v.kind = .binary ∧ ¬(t.holds v.left ∧ t.holds v.right) then (.error (.detached v), t)
    else (.ok t.size, t.push v)

theorem WellFormed.unique (h : t.WellFormed) {i j : Nat} (hi : t.values[i]? = some v) (hj : t.values[j]? = some v) :
    i = j := by
  have hindex := (h.indexed v i).2 hi
  rw [(h.indexed v j).2 hj] at hindex
  exact (Option.some.inj hindex).symm

theorem WellFormed.nodup (h : t.WellFormed) : t.values.toList.Nodup := by
  rw [List.nodup_iff_injective_getElem]
  rintro ⟨i, hi⟩ ⟨j, hj⟩ heq
  have hsame : t.values.toList[i] = t.values.toList[j] := heq
  have hi' : t.values[i]? = some t.values.toList[i] := by rw [← Array.getElem?_toList, List.getElem?_eq_getElem hi]
  have hj' : t.values[j]? = some t.values.toList[j] := by rw [← Array.getElem?_toList, List.getElem?_eq_getElem hj]
  rw [hsame] at hi'
  exact Fin.ext (h.unique hi' hj')

/-- The index knows the place that a search would find. -/
theorem WellFormed.index_eq (h : t.WellFormed) (v : Value) : t.index[v]? = t.values.toList.idxOf? v := by
  cases hscan : t.values.toList.idxOf? v with
  | some i =>
    obtain ⟨hi, hv, -⟩ := List.idxOf?_eq_some_iff.1 hscan
    rw [h.indexed, ← Array.getElem?_toList, List.getElem?_eq_getElem hi, hv]
  | none =>
    cases hindex : t.index[v]? with
    | none => rfl
    | some i =>
      have hmem : v ∈ t.values := Array.mem_of_getElem? ((h.indexed v i).1 hindex)
      exact absurd (Array.mem_def.1 hmem) (List.idxOf?_eq_none_iff.1 hscan)

theorem intern_eq_internByScan (h : t.WellFormed) (v : Value) : intern v t = internByScan v t := by
  unfold intern internByScan
  cases hscan : t.values.toList.idxOf? v with
  | some i => simp only [h.index_eq v, hscan]
  | none => simp only [h.index_eq v, hscan]

end Scanning

/-! ## What a call can do -/

section Calls

inductive Call where
  | intern (v : Value)
  | constant (text : Bytes)
  | operate (op : Operator) (a b : Ref)

def Call.perform : Call → Build ValueTable TableFault Ref
  | .intern v => ValueTable.intern v
  | .constant text => ValueTable.constant text
  | .operate op a b => ValueTable.operate op a b

/-- An operation is refused at once, is a place already, or interns a value. -/
theorem operate_cases (op : Operator) (a b : Ref) (t : ValueTable) :
    (∃ e, operate op a b t = (.error e, t)) ∨ (∃ r, operate op a b t = (.ok r, t)) ∨
      ∃ v, operate op a b t = intern v t := by
  unfold operate
  split
  · exact .inr (.inl ⟨_, rfl⟩)
  · exact .inr (.inr ⟨_, rfl⟩)
  · exact .inl ⟨_, rfl⟩

/-- **One call**: a refusal and an answer leave the table as it is, or a fresh value is added with its operands. -/
theorem perform_cases (call : Call) (t : ValueTable) :
    (∃ e, call.perform t = (.error e, t)) ∨ (∃ r, call.perform t = (.ok r, t)) ∨
      ∃ v, t.index[v]? = none ∧ t.Admits v ∧ call.perform t = (.ok (t.size : Ref), t.push v) := by
  have hintern : ∀ v, (∃ e, intern v t = (.error e, t)) ∨ (∃ r, intern v t = (.ok r, t)) ∨
      ∃ w, t.index[w]? = none ∧ t.Admits w ∧ intern v t = (.ok (t.size : Ref), t.push w) := by
    intro v
    rcases intern_cases v t with ⟨i, _, h⟩ | ⟨_, _, h⟩ | ⟨hfresh, hadm, h⟩
    · exact .inr (.inl ⟨_, h⟩)
    · exact .inl ⟨_, h⟩
    · exact .inr (.inr ⟨v, hfresh, hadm, h⟩)
  cases call with
  | intern v => exact hintern v
  | constant text => exact hintern (.constant text)
  | operate op a b =>
    rcases operate_cases op a b t with h | h | ⟨v, h⟩
    · exact .inl h
    · exact .inr (.inl h)
    · simp only [Call.perform, h]
      exact hintern v

end Calls

/-! ## Answers in the table -/

section Answers

/-- What an operation can come to: one of its operands, a constant, or the operation itself. -/
theorem simplified_cases (op : Operator) (a b : Ref) (u w : Value) :
    simplified op a b u w = .place a ∨ simplified op a b u w = .place b ∨
      (∃ text, simplified op a b u w = .value (.constant text)) ∨
      simplified op a b u w = .value (.binary op a b) := by
  have hcombined : (∃ text, combined op a b u w = .value (.constant text)) ∨
      combined op a b u w = .value (.binary op a b) := by
    unfold combined
    split
    · exact .inl ⟨_, rfl⟩
    · exact .inr rfl
  cases op <;> dsimp only [simplified] <;> grind

/-- A value whose operands are in the table gets a place in the table. -/
theorem intern_of_admits (h : t.WellFormed) (hv : t.Admits v) :
    ∃ r t', intern v t = (.ok r, t') ∧ t'.holds r := by
  rcases intern_cases v t with ⟨i, hi, hrun⟩ | ⟨_, hrefused, _⟩ | ⟨_, _, hrun⟩
  · exact ⟨i, t, hrun, (t.holds_natCast i).2 (lt_size_of_getElem? ((h.indexed v i).1 hi))⟩
  · exact absurd hv hrefused
  · refine ⟨t.size, t.push v, hrun, ((t.push v).holds_natCast t.size).2 ?_⟩
    rw [size_push]
    exact Nat.lt_succ_self _

theorem admits_constant (t : ValueTable) (text : Bytes) : t.Admits (.constant text) := nofun

/-- **Operations on places of the table** are answered with a place of the table. -/
theorem operate_of_holds (h : t.WellFormed) (op : Operator) (ha : t.holds a) (hb : t.holds b) :
    ∃ r t', operate op a b t = (.ok r, t') ∧ t'.holds r := by
  obtain ⟨u, hu⟩ := exists_get?_of_holds ha
  obtain ⟨w, hw⟩ := exists_get?_of_holds hb
  unfold operate
  rw [reduce_eq hu hw]
  rcases simplified_cases op a b u w with heq | heq | ⟨text, heq⟩ | heq
  · rw [heq]
    exact ⟨a, t, rfl, ha⟩
  · rw [heq]
    exact ⟨b, t, rfl, hb⟩
  · rw [heq]
    exact intern_of_admits h (admits_constant t text)
  · rw [heq]
    exact intern_of_admits h fun _ => ⟨ha, hb⟩

end Answers

/-! ## Whole runs -/

section Runs

/-- **Tables stay indexed, ordered and append-only.** After any run, refused calls included, no entry occurs twice, the
index is exactly the entries, so that interning answers as a search through them would, operations stand behind their
operands, and the components of the argument stand in front. The next call keeps all entries and adds at most one;
if it is refused, it changes nothing; and on places of the table it answers with a place of the table. -/
theorem Reachable.indexed_ordered_append_only (ht : t.Reachable) :
    t.values.toList.Nodup ∧
    (∀ (v : Value) (i : Nat), t.index[v]? = some i ↔ t.values[i]? = some v) ∧
    (∀ v, intern v t = internByScan v t) ∧
    (∀ (i : Nat) (v : Value), t.values[i]? = some v → v.kind = .binary →
      (0 ≤ v.left ∧ v.left < i) ∧ 0 ≤ v.right ∧ v.right < i) ∧
    t.values[0]? = some (.argument (bytes "re")) ∧ t.values[1]? = some (.argument (bytes "im")) ∧
    (∀ call : Call, (call.perform t).2.values = t.values ∨ ∃ v, (call.perform t).2.values = t.values.push v) ∧
    (∀ (call : Call) (e : TableFault) (t' : ValueTable), call.perform t = (.error e, t') → t' = t) ∧
    ∀ (op : Operator) (a b : Ref), t.holds a → t.holds b → ∃ r t', operate op a b t = (.ok r, t') ∧ t'.holds r := by
  have h := ht.wellFormed
  refine ⟨h.nodup, h.indexed, intern_eq_internByScan h, fun i v hv hk => h.operands_lt hv hk, h.real, h.imaginary,
    fun call => ?_, fun call e t' hcall => ?_, fun op a b ha hb => operate_of_holds h op ha hb⟩
  · rcases perform_cases call t with ⟨e, hrun⟩ | ⟨r, hrun⟩ | ⟨v, -, -, hrun⟩
    · exact .inl (by rw [hrun])
    · exact .inl (by rw [hrun])
    · exact .inr ⟨v, by rw [hrun]; rfl⟩
  · rcases perform_cases call t with ⟨e', hrun⟩ | ⟨r, hrun⟩ | ⟨v, -, -, hrun⟩
    · rw [hrun] at hcall
      cases hcall
      rfl
    · rw [hrun] at hcall
      cases hcall
    · rw [hrun] at hcall
      cases hcall

/-- The product of both components, and then a sum with a place that is not there. -/
def refusedSum : ValueTable := (new.after (.operate .mul 0 1)).after (.operate .add 2 9)

theorem values_refusedSum : refusedSum.values =
    #[.argument (bytes "re"), .argument (bytes "im"), .binary .mul 0 1] := by cbv

theorem indexed_ordered_append_only_refusedSum :
    refusedSum.Reachable ∧ refusedSum.values.toList.Nodup ∧
    (((0 : Ref) ≤ 0 ∧ (0 : Ref) < (2 : Nat)) ∧ (0 : Ref) ≤ 1 ∧ (1 : Ref) < (2 : Nat)) ∧
    ((Call.operate .add 2 9).perform refusedSum).1 = .error .outOfTable ∧
    ((Call.operate .add 2 9).perform refusedSum).2 = refusedSum ∧
    ∃ r t', operate .div 2 0 refusedSum = (.ok r, t') ∧ t'.holds r := by
  have hreachable : refusedSum.Reachable := .after (.after .new _) _
  have hsize : refusedSum.size = 3 := by rw [size, values_refusedSum]; rfl
  have hrefused : ((Call.operate .add 2 9).perform refusedSum).1 = .error .outOfTable := by cbv
  obtain ⟨hnodup, -, -, hoperands, -, -, -, hkept, hanswer⟩ := hreachable.indexed_ordered_append_only
  refine ⟨hreachable, hnodup, hoperands 2 (.binary .mul 0 1) ?_ rfl, hrefused, ?_, hanswer .div 2 0 ?_ ?_⟩
  · rw [values_refusedSum]
    rfl
  · exact hkept (.operate .add 2 9) .outOfTable _ (Prod.ext hrefused rfl)
  · exact (holds_natCast _ 2).2 (by omega)
  · exact (holds_natCast _ 0).2 (by omega)

end Runs

end ComplexFormula.ValueTable
