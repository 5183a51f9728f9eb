import ComplexFormula.Program.Emission
import ComplexFormula.Proofs.BitSet
import ComplexFormula.Proofs.ValueTable.Evaluation
import ComplexFormula.Proofs.ValueTable.Runs
import Mathlib

/-!
# Emitted programs compute the table

Whichever operations get a temporary, the expression of an entry evaluates to the entry's value as soon as the
temporaries of the entries before it hold theirs (`Computes`, `expand_computes`). Assignments come in the order of the
table, and the temporary that an assignment sets is the one by which its entry is referred to, because the rank of an
element is its place among the elements. So every temporary holds the value of its entry in the end
(`assignments_complete`), and both results are right (`call_toProgram`).
-/

namespace ComplexFormula

/-- An entry at the place `i` that has an expression once the entries before it have theirs. Any byte will do as an
operator. -/
def Value.ExpandableAt (i : Nat) (v : Value) : Prop :=
  match v.kind with
  | .argument => i < 2
  | .constant => True
  | .binary => ∃ l r : Nat, v.left = l ∧ v.right = r ∧ l < i ∧ r < i
  | .other _ => False

/-- A value also needs an operator that stands for an operation. -/
theorem Value.meaningfulAt_iff {i : Nat} {v : Value} :
    v.MeaningfulAt i ↔ v.ExpandableAt i ∧ (v.kind = .binary → ∃ op : Operator, v.symbol = op.symbol) := by
  unfold MeaningfulAt ExpandableAt
  cases v.kind with
  | argument => simp
  | constant => simp
  | binary =>
    constructor
    · rintro ⟨op, l, r, hop, hplaces⟩
      exact ⟨⟨l, r, hplaces⟩, fun _ => ⟨op, hop⟩⟩
    · rintro ⟨⟨l, r, hplaces⟩, hop⟩
      obtain ⟨op, hop⟩ := hop rfl
      exact ⟨op, l, r, hop, hplaces⟩
  | other code => simp

namespace ValueTable

variable {t : ValueTable}

/-- Every entry has an expression. -/
def Expandable (t : ValueTable) : Prop := ∀ (i : Nat) (v : Value), t.values[i]? = some v → v.ExpandableAt i

theorem Meaningful.expandable (ht : t.Meaningful) : t.Expandable :=
  fun i v hv => (Value.meaningfulAt_iff.1 (ht i v hv)).1

/-! ## Expressions of entries -/

section Expansion

variable {shared : BitSet}

/-- What stands for an entry in an expression: its temporary if it has one, else an expression with `Q`. -/
def StandsFor (shared : BitSet) (Q : Nat → Expr → Prop) (i : Nat) (e : Expr) : Prop :=
  (shared.contains i ∧ e = .temp (shared.rank i)) ∨ (¬shared.contains i ∧ Q i e)

theorem refer_of_expand {Q : Nat → Expr → Prop} {i : Nat} {e : Expr} (he : t.expand shared i = .ok e) (hq : Q i e) :
    ∃ e', t.refer shared (i : Ref) = .ok e' ∧ StandsFor shared Q i e' := by
  unfold refer temporary?
  rw [Int.toNat_natCast]
  split
  · rename_i e' hsome
    split at hsome
    · rename_i hc
      cases hsome
      exact ⟨_, rfl, .inl ⟨hc, rfl⟩⟩
    · cases hsome
  · rename_i hnone
    split at hnone
    · cases hnone
    · rename_i hc
      exact ⟨e, he, .inr ⟨hc, hq⟩⟩

/-- An operation is expanded by referring to its operands. -/
theorem expand_binary {i l r : Nat} {v : Value} {a b : Expr} (hv : t.values[i]? = some v) (hk : v.kind = .binary)
    (hl : v.left = l) (hr : v.right = r) (hlt : l < i) (hrt : r < i) (ha : t.refer shared (l : Ref) = .ok a)
    (hb : t.refer shared (r : Ref) = .ok b) : t.expand shared i = .ok (.binary v.symbol a b) := by
  unfold refer at ha hb
  rw [expand, hv]
  simp only [hk, hl, hr, Int.toNat_natCast] at ha hb ⊢
  rw [dif_pos ⟨hlt, hrt⟩]
  cases hl' : temporary? shared l <;> cases hr' : temporary? shared r <;> simp only [hl', hr'] at ha hb ⊢ <;>
    rw [ha, hb] <;> rfl

/-- **Induction on expressions**: entries without operands, and operations all of whose operands are done. -/
theorem expand_induction (ht : t.Expandable) (shared : BitSet) {Q : Nat → Expr → Prop}
    (argument : ∀ (i : Nat) (v : Value), t.values[i]? = some v → v.kind = .argument → i < 2 → Q i (.arg i v.text))
    (constant : ∀ (i : Nat) (v : Value), t.values[i]? = some v → v.kind = .constant → Q i (.const v.text))
    (binary : ∀ (i : Nat) (v : Value) (l r : Nat) (a b : Expr), t.values[i]? = some v → v.kind = .binary →
      v.left = l → v.right = r → l < i → r < i → StandsFor shared Q l a → StandsFor shared Q r b →
      Q i (.binary v.symbol a b))
    {i : Nat} (hi : i < t.size) : ∃ e, t.expand shared i = .ok e ∧ Q i e := by
  induction i using Nat.strongRecOn with
  | _ i ih =>
    have hv : t.values[i]? = some t.values[i] := Array.getElem?_eq_getElem hi
    generalize t.values[i] = v at hv
    have hm := ht i v hv
    unfold Value.ExpandableAt at hm
    split at hm
    · rename_i hk
      exact ⟨_, by rw [expand, hv]; simp only [hk], argument i v hv hk hm⟩
    · rename_i hk
      exact ⟨_, by rw [expand, hv]; simp only [hk], constant i v hv hk⟩
    · rename_i hk
      obtain ⟨l, r, hl, hr, hlt, hrt⟩ := hm
      obtain ⟨x, hx, hqx⟩ := ih l hlt (by omega)
      obtain ⟨y, hy, hqy⟩ := ih r hrt (by omega)
      obtain ⟨a, ha, hqa⟩ := refer_of_expand hx hqx
      obtain ⟨b, hb, hqb⟩ := refer_of_expand hy hqy
      exact ⟨_, expand_binary hv hk hl hr hlt hrt ha hb, binary i v l r a b hv hk hl hr hlt hrt hqa hqb⟩
    · exact hm.elim

end Expansion

/-! ## Expressions compute their entries -/

section Computing

variable {shared : BitSet} {K : Type}

/-- The temporaries of the entries before `n` hold the values of these entries. -/
def Assigned (shared : BitSet) (known temps : Array K) (n : Nat) : Prop :=
  ∀ j < n, shared.contains j → temps[shared.rank j]? = known[j]?

/-- `e` can be run, and evaluates to the entry `i` once the entries before `n` are assigned. -/
def Computes (t : ValueTable) (shared : BitSet) (n i : Nat) (e : Expr) : Prop :=
  e.check = .ok () ∧ ∀ {K : Type} (A : Arithmetic K) (x y : K) (known temps : Array K),
    t.evaluate A x y = some known → Assigned shared known temps n →
    ∃ k, known[i]? = some k ∧ e.eval A #[x, y] temps = .ok k

theorem Computes.mono {n m i : Nat} {e : Expr} (h : Computes t shared n i e) (hnm : n ≤ m) :
    Computes t shared m i e :=
  ⟨h.1, fun A x y known temps hknown hassigned =>
    h.2 A x y known temps hknown fun j hj => hassigned j (Nat.lt_of_lt_of_le hj hnm)⟩

theorem lookup_natCast {xs : Array K} {i : Nat} {k : K} (h : xs[i]? = some k) : Expr.lookup xs i = .ok k := by
  rw [Expr.lookup, if_neg (Int.not_lt.2 (Int.natCast_nonneg i)), Int.toNat_natCast, h]

/-- What stands for an entry computes it, once the entry itself is assigned if it has a temporary. -/
theorem computes_of_standsFor {n i : Nat} {e : Expr} (hi : i < t.size) (hin : i < n)
    (h : StandsFor shared (fun i e => Computes t shared i i e) i e) : Computes t shared n i e := by
  rcases h with ⟨hc, rfl⟩ | ⟨_, he⟩
  · refine ⟨rfl, fun A x y known temps hknown hassigned => ?_⟩
    have hlt : i < known.size := by rwa [size_evaluate hknown]
    have htemp := hassigned i hin hc
    rw [Array.getElem?_eq_getElem hlt] at htemp ⊢
    exact ⟨_, rfl, lookup_natCast htemp⟩
  · exact he.mono (Nat.le_of_lt hin)

theorem check_binary {op : Operator} {a b : Expr} (ha : a.check = .ok ()) (hb : b.check = .ok ()) :
    (Expr.binary op.symbol a b).check = .ok () := by
  simp [Expr.check, ha, hb, bind, Except.bind]

theorem eval_binary {A : Arithmetic K} {args temps : Array K} {op : Operator} {a b : Expr} {k m : K}
    (ha : a.eval A args temps = .ok k) (hb : b.eval A args temps = .ok m) :
    (Expr.binary op.symbol a b).eval A args temps = .ok (A.operate op k m) := by
  simp [Expr.eval, ha, hb, bind, Except.bind]

/-- The value of an operation, from those of its operands. -/
theorem evaluate_binary {A : Arithmetic K} {x y : K} {known : Array K} (hknown : t.evaluate A x y = some known)
    {i l r : Nat} {v : Value} {op : Operator} {k m : K} (hv : t.values[i]? = some v) (hk : v.kind = .binary)
    (hop : v.symbol = op.symbol) (hl : v.left = l) (hr : v.right = r) (ha : known[l]? = some k)
    (hb : known[r]? = some m) : known[i]? = some (A.operate op k m) := by
  obtain ⟨n, hn, hval⟩ := getElem?_evaluate hknown hv
  rw [Value.value?_binary hk hop (by rw [hl, valueAt_natCast, ha]) (by rw [hr, valueAt_natCast, hb])] at hval
  rw [hn, ← hval]

/-- **Every expanded entry computes its entry.** -/
theorem expand_computes (ht : t.Meaningful) (shared : BitSet) {i : Nat} (hi : i < t.size) :
    ∃ e, t.expand shared i = .ok e ∧ Computes t shared i i e := by
  refine expand_induction ht.expandable shared (Q := fun i e => Computes t shared i i e) ?_ ?_ ?_ hi
  · intro i v hv hk hlt
    refine ⟨rfl, fun A x y known temps hknown _ => ?_⟩
    obtain ⟨k, hk', hval⟩ := getElem?_evaluate hknown hv
    simp only [Value.value?, hk] at hval
    exact ⟨k, hk', lookup_natCast hval⟩
  · intro i v hv hk
    refine ⟨rfl, fun A x y known temps hknown _ => ?_⟩
    obtain ⟨k, hk', hval⟩ := getElem?_evaluate hknown hv
    simp only [Value.value?, hk, Option.some.injEq] at hval
    exact ⟨k, hk', by rw [Expr.eval, hval]⟩
  · intro i v l r a b hv hk hl hr hlt hrt ha hb
    obtain ⟨op, hop⟩ := (Value.meaningfulAt_iff.1 (ht i v hv)).2 hk
    have hsize := lt_size_of_getElem? hv
    have ha' := computes_of_standsFor (by omega) hlt ha
    have hb' := computes_of_standsFor (by omega) hrt hb
    rw [hop]
    refine ⟨check_binary ha'.1 hb'.1, fun A x y known temps hknown hassigned => ?_⟩
    obtain ⟨k, hkl, hevala⟩ := ha'.2 A x y known temps hknown hassigned
    obtain ⟨m, hmr, hevalb⟩ := hb'.2 A x y known temps hknown hassigned
    exact ⟨_, evaluate_binary hknown hv hk hop hl hr hkl hmr, eval_binary hevala hevalb⟩

theorem refer_computes (ht : t.Meaningful) (shared : BitSet) {i : Nat} (hi : i < t.size) :
    ∃ e, t.refer shared (i : Ref) = .ok e ∧ Computes t shared t.size i e := by
  obtain ⟨e, he, hcomp⟩ := expand_computes ht shared hi
  obtain ⟨e', he', hstands⟩ := refer_of_expand (Q := fun i e => Computes t shared i i e) he hcomp
  exact ⟨e', he', computes_of_standsFor hi hi hstands⟩

end Computing

/-! ## Assignments -/

section Assignments

variable {shared : BitSet} {K : Type} {A : Arithmetic K} {x y : K} {known temps : Array K}

/-- The elements before an element are those that stand before it in the list. -/
theorem mem_of_lt_of_elements {before after : List Nat} {i j : Nat} (hsplit : shared.elements = before ++ i :: after)
    (hj : shared.contains j) (hji : j < i) : j ∈ before := by
  have hmem := BitSet.mem_elements.2 hj
  have hsorted := shared.pairwise_elements
  rw [hsplit] at hmem hsorted
  obtain ⟨_, hafter, _⟩ := List.pairwise_append.1 hsorted
  rcases List.mem_append.1 hmem with h | h
  · exact h
  · rcases List.mem_cons.1 h with rfl | h
    · omega
    · have := (List.pairwise_cons.1 hafter).1 j h
      omega

theorem lt_of_mem_of_elements {before after : List Nat} {i j : Nat} (hsplit : shared.elements = before ++ i :: after)
    (hj : j ∈ before) : j < i := by
  have hsorted := shared.pairwise_elements
  rw [hsplit] at hsorted
  exact (List.pairwise_append.1 hsorted).2.2 j hj i List.mem_cons_self

/-- One assignment: the temporary of the next element takes the value of its entry, and the others keep theirs. -/
theorem assign_step {before after : List Nat} {i : Nat} {e : Expr} (hsplit : shared.elements = before ++ i :: after)
    (he : Computes t shared i i e) (hknown : t.evaluate A x y = some known)
    (hsize : temps.size = shared.elements.length)
    (hbefore : ∀ j ∈ before, temps[shared.rank j]? = known[j]?) :
    ∃ next, Program.assign A #[x, y] temps ⟨before.length, e⟩ = .ok next ∧ next.size = shared.elements.length ∧
      ∀ j ∈ before ++ [i], next[shared.rank j]? = known[j]? := by
  have hlt : before.length < temps.size := by
    rw [hsize, hsplit, List.length_append, List.length_cons]
    omega
  have hrank : shared.rank i = before.length := by
    apply BitSet.rank_of_getElem?_elements
    simp [hsplit]
  have hassigned : Assigned shared known temps i := fun j hj hc => hbefore j (mem_of_lt_of_elements hsplit hc hj)
  obtain ⟨k, hk, heval⟩ := he.2 A x y known temps hknown hassigned
  refine ⟨temps.setIfInBounds before.length k, ?_, by rw [Array.size_setIfInBounds, hsize], ?_⟩
  · have hbounds : (0 : Int) ≤ before.length ∧ (before.length : Int) < temps.size := by omega
    simp only [Program.assign, heval, bind, Except.bind]
    rw [if_pos hbounds, Int.toNat_natCast]
  · intro j hj
    rw [Array.getElem?_setIfInBounds]
    rcases List.mem_append.1 hj with hj | hj
    · -- an earlier element has its own temporary
      have hc : shared.contains j := by
        rw [← BitSet.mem_elements, hsplit]
        exact List.mem_append_left _ hj
      have hne : before.length ≠ shared.rank j := by
        intro heq
        have hget := BitSet.getElem?_elements_rank hc
        rw [← heq, hsplit] at hget
        have hji := lt_of_mem_of_elements hsplit hj
        simp only [List.getElem?_append_right (Nat.le_refl _), Nat.sub_self, List.getElem?_cons_zero,
          Option.some.injEq] at hget
        omega
      rw [if_neg hne, hbefore j hj]
    · cases List.mem_singleton.1 hj
      rw [if_pos hrank.symm, if_pos (hrank ▸ hlt), hk]

/-- Running the assignments that are left, once the elements before them are assigned, assigns all. -/
def Completes (t : ValueTable) (shared : BitSet) (before : List Nat) (assigns : List Assign) : Prop :=
  ∀ {K : Type} (A : Arithmetic K) (x y : K) (known temps : Array K), t.evaluate A x y = some known →
    temps.size = shared.elements.length → (∀ j ∈ before, temps[shared.rank j]? = known[j]?) →
    ∃ last, assigns.foldlM (Program.assign A #[x, y]) temps = .ok last ∧
      ∀ j ∈ shared.elements, last[shared.rank j]? = known[j]?

/-- **All assignments**, by induction on those that are left. -/
theorem assignments_complete (ht : t.Meaningful) (hin : ∀ i, shared.contains i → i < t.size) :
    ∀ after before : List Nat, shared.elements = before ++ after →
      ∃ assigns, t.assignments shared before.length after = .ok assigns ∧ assigns.length = after.length ∧
        (∀ a ∈ assigns, a.expr.check = .ok ()) ∧ Completes t shared before assigns
  | [], before, hsplit => by
    refine ⟨[], rfl, rfl, by simp, fun A x y known temps _ _ hbefore => ⟨temps, rfl, ?_⟩⟩
    rw [hsplit, List.append_nil]
    exact hbefore
  | i :: after, before, hsplit => by
    have hc : shared.contains i := by
      rw [← BitSet.mem_elements, hsplit]
      simp
    obtain ⟨e, he, hcomp⟩ := expand_computes ht shared (hin i hc)
    obtain ⟨assigns, hassigns, hlength, hchecks, hruns⟩ :=
      assignments_complete ht hin after (before ++ [i]) (by rw [hsplit, List.append_assoc]; rfl)
    rw [List.length_append, List.length_singleton] at hassigns
    refine ⟨⟨before.length, e⟩ :: assigns, ?_, by rw [List.length_cons, hlength, List.length_cons], ?_, ?_⟩
    · simp only [assignments, he, hassigns, bind, Except.bind]
    · intro a ha
      rcases List.mem_cons.1 ha with rfl | ha
      · exact hcomp.1
      · exact hchecks a ha
    · intro K A x y known temps hknown hsize hbefore
      obtain ⟨next, hstep, hnext, hdone⟩ := assign_step hsplit hcomp hknown hsize hbefore
      obtain ⟨last, hlast, hall⟩ := hruns A x y known next hknown hnext hdone
      exact ⟨last, by rw [List.foldlM_cons, hstep]; exact hlast, hall⟩

end Assignments

/-! ## Whole programs -/

section Programs

variable {re im : Ref} {K : Type}

theorem contains_shared {i : Nat} : (t.shared re im).contains i ↔
    i < t.size ∧ 2 ≤ (t.useCounts re im)[i]?.getD 0 ∧ t.isBinary i := by
  rw [shared, BitSet.contains_foldl_insert, BitSet.contains_withRoom]
  simp

/-- There is a stray argument exactly if some argument stands behind the first two places. -/
theorem strayArgument?_eq_none_iff : t.strayArgument? = none ↔
    ∀ (i : Nat) (v : Value), t.values[i]? = some v → v.kind = .argument → i < 2 := by
  rw [strayArgument?, List.find?_eq_none]
  constructor
  · intro h i v hv hk
    have hmem : (v, i) ∈ t.values.toList.zipIdx := List.mem_zipIdx_iff_getElem?.2 (by simpa using hv)
    have := h (v, i) hmem
    simp only [hk, true_and, decide_eq_true_eq] at this
    omega
  · rintro h ⟨v, i⟩ hmem
    have hv := List.mem_zipIdx_iff_getElem?.1 hmem
    have := h i v (by simpa using hv)
    simp only [decide_eq_true_eq, not_and]
    intro hk
    have := this hk
    omega

theorem Meaningful.strayArgument? (ht : t.Meaningful) : t.strayArgument? = none := by
  rw [strayArgument?_eq_none_iff]
  intro i v hv hk
  have := ht i v hv
  simpa only [Value.MeaningfulAt, hk] using this

/-- A program whose temporaries are those it assigns has room for them. -/
theorem frame_eq_ok {A : Arithmetic K} {p : Program} {n : Nat} (htemps : p.temps = n)
    (hassigns : p.assigns.length = n) : p.frame A = .ok (Array.replicate n A.zero) := by
  have hroom : 0 ≤ p.temps ∧ (p.temps.toNat ≤ 1 <<< 45 ∨ p.temps.toNat ≤ p.assigns.length) := by omega
  rw [Program.frame, if_pos hroom, htemps, Int.toNat_natCast]

theorem check_eq_ok {p : Program} (hassigns : ∀ a ∈ p.assigns, a.expr.check = .ok ()) (hre : p.re.check = .ok ())
    (him : p.im.check = .ok ()) : p.check = .ok () := by
  have hall : ∀ assigns : List Assign, (∀ a ∈ assigns, a.expr.check = .ok ()) →
      (assigns.forM fun a => a.expr.check) = .ok () := by
    intro assigns h
    induction assigns with
    | nil => rfl
    | cons a assigns ih =>
      rw [List.forM, h a List.mem_cons_self]
      exact ih fun b hb => h b (List.mem_cons_of_mem _ hb)
  simp only [Program.check, hall p.assigns hassigns, hre, him, bind, Except.bind]

/-- A program is put together from its assignments and the expressions of its results. -/
theorem toProgram_eq_ok {assigns : List Assign} {a b : Expr} (hre : t.holds re) (him : t.holds im)
    (hargs : t.strayArgument? = none)
    (hassigns : t.assignments (t.shared re im) 0 (t.shared re im).elements = .ok assigns)
    (ha : t.refer (t.shared re im) re = .ok a) (hb : t.refer (t.shared re im) im = .ok b) :
    t.toProgram re im = .ok ⟨assigns, a, b, (t.shared re im).size⟩ := by
  simp only [toProgram, hre, him, hargs, assemble, hassigns, ha, hb, bind, Except.bind, Bool.not_true,
    Bool.false_eq_true, if_false]

/-- **The emitted program** exists and, over any numbers, computes the values of the two entries. -/
theorem call_toProgram (ht : t.Meaningful) {re im : Nat} (hre : re < t.size) (him : im < t.size) :
    ∃ p, t.toProgram re im = .ok p ∧ ∀ {K : Type} (A : Arithmetic K) (x y : K) (known : Array K),
      t.evaluate A x y = some known →
      ∃ a b, known[re]? = some a ∧ known[im]? = some b ∧ p.call A x y = .ok (a, b) := by
  have hin : ∀ i, (t.shared re im).contains i → i < t.size := fun i hi => (contains_shared.1 hi).1
  obtain ⟨assigns, hassigns, hlength, hchecks, hcompletes⟩ :=
    assignments_complete ht hin (t.shared re im).elements [] rfl
  obtain ⟨a, ha, hcompa⟩ := refer_computes ht (t.shared re im) hre
  obtain ⟨b, hb, hcompb⟩ := refer_computes ht (t.shared re im) him
  refine ⟨⟨assigns, a, b, (t.shared re im).size⟩, ?_, fun A x y known hknown => ?_⟩
  · exact toProgram_eq_ok ((t.holds_natCast re).2 hre) ((t.holds_natCast im).2 him) ht.strayArgument? hassigns ha hb
  · have hframe : (Program.mk assigns a b (t.shared re im).size).frame A =
        .ok (Array.replicate (t.shared re im).elements.length A.zero) :=
      frame_eq_ok (by rw [BitSet.size_eq]) hlength
    obtain ⟨last, hrun, hall⟩ :=
      hcompletes A x y known (Array.replicate _ A.zero) hknown Array.size_replicate (by simp)
    have hassigned : Assigned (t.shared re im) known last t.size :=
      fun j _ hj => hall j (BitSet.mem_elements.2 hj)
    obtain ⟨k, hk, hevala⟩ := hcompa.2 A x y known last hknown hassigned
    obtain ⟨m, hm, hevalb⟩ := hcompb.2 A x y known last hknown hassigned
    refine ⟨k, m, hk, hm, ?_⟩
    have hcheck := check_eq_ok (p := ⟨assigns, a, b, (t.shared re im).size⟩) hchecks hcompa.1 hcompb.1
    simp only [Program.call, Program.run, hcheck, hframe, hrun, hevala, hevalb, bind, Except.bind]
    rfl

/-- All entries of a reachable table of known kinds have expressions, but for stray arguments. -/
theorem Reachable.expandable (ht : t.Reachable)
    (hkinds : ∀ v ∈ t.values, v.kind = .argument ∨ v.kind = .constant ∨ v.kind = .binary)
    (hargs : t.strayArgument? = none) : t.Expandable := by
  intro i v hv
  unfold Value.ExpandableAt
  split
  · rename_i hk
    exact strayArgument?_eq_none_iff.1 hargs i v hv hk
  · trivial
  · rename_i hk
    exact ht.wellFormed.operands i v hv hk
  · rename_i hk
    simpa [hk] using hkinds v (Array.mem_of_getElem? hv)

/-- With known operators they are meaningful, too. -/
theorem Reachable.meaningful (ht : t.Reachable)
    (hkinds : ∀ v ∈ t.values, v.kind = .argument ∨ v.kind = .constant ∨ v.kind = .binary)
    (hops : ∀ v ∈ t.values, v.kind = .binary → ∃ op : Operator, v.symbol = op.symbol)
    (hargs : t.strayArgument? = none) : t.Meaningful := by
  intro i v hv
  exact Value.meaningfulAt_iff.2 ⟨ht.expandable hkinds hargs i v hv, hops v (Array.mem_of_getElem? hv)⟩

/-- **Emission and running preserve the table's meaning.** Emission fails only for a stray argument. Otherwise the
program passes its check and returns, at every point, the binary64 values that the table has there when it is
evaluated in its own order. -/
theorem toProgram_preserves_values (ht : t.Reachable)
    (hkinds : ∀ v ∈ t.values, v.kind = .argument ∨ v.kind = .constant ∨ v.kind = .binary)
    (hops : ∀ v ∈ t.values, v.kind = .binary → ∃ op : Operator, v.symbol = op.symbol) (hre : t.holds re)
    (him : t.holds im) :
    ((∃ e, t.toProgram re im = .error e) ↔
      ∃ (i : Nat) (v : Value), 2 ≤ i ∧ t.values[i]? = some v ∧ v.kind = .argument) ∧
    ∀ p, t.toProgram re im = .ok p → ∀ x y : Binary64, ∃ known a b,
      t.evaluate binary64 x y = some known ∧ valueAt known re = some a ∧ valueAt known im = some b ∧
        p.call binary64 x y = .ok (a, b) := by
  obtain ⟨i, rfl, hi⟩ := holds_iff.1 hre
  obtain ⟨j, rfl, hj⟩ := holds_iff.1 him
  cases hstray : t.strayArgument? with
  | none =>
    have hm := ht.meaningful hkinds hops hstray
    obtain ⟨p, hp, hcall⟩ := call_toProgram hm hi hj
    rw [hp]
    refine ⟨⟨fun ⟨e, he⟩ => (by cases he), fun ⟨n, v, hn, hv, hk⟩ => ?_⟩, fun q hq x y => ?_⟩
    · have := strayArgument?_eq_none_iff.1 hstray n v hv hk
      omega
    · cases hq
      obtain ⟨known, hknown⟩ := exists_evaluate hm binary64 x y
      obtain ⟨a, b, ha, hb, hrun⟩ := hcall binary64 x y known hknown
      exact ⟨known, a, b, hknown, by rw [valueAt_natCast, ha], by rw [valueAt_natCast, hb], hrun⟩
  | some stray =>
    have hfail : t.toProgram i j = .error (.strayArgument stray.1.text stray.2) := by
      simp only [toProgram, hre, him, hstray, Bool.not_true, Bool.false_eq_true, if_false]
    rw [hfail]
    refine ⟨⟨fun _ => ?_, fun _ => ⟨_, rfl⟩⟩, fun q hq => (by cases hq)⟩
    have hmem := List.mem_of_find?_eq_some hstray
    have hprop := List.find?_some hstray
    simp only [decide_eq_true_eq] at hprop
    have hget := List.mem_zipIdx_iff_getElem?.1 hmem
    exact ⟨stray.2, stray.1, hprop.2, by simpa using hget, hprop.1⟩

/-- The square of the real part, the square plus two, and the quotient of both: two operations are shared. -/
def sharedSquare : ValueTable :=
  (((new.after (.constant (bytes "2"))).after (.operate .mul 0 0)).after (.operate .add 3 2)).after (.operate .div 4 3)

theorem values_sharedSquare : sharedSquare.values =
    #[.argument (bytes "re"), .argument (bytes "im"), .constant (bytes "2"), .binary .mul 0 0, .binary .add 3 2,
      .binary .div 4 3] := by cbv

theorem toProgram_preserves_values_sharedSquare :
    ((∃ e, sharedSquare.toProgram 5 4 = .error e) ↔
      ∃ (i : Nat) (v : Value), 2 ≤ i ∧ sharedSquare.values[i]? = some v ∧ v.kind = .argument) ∧
    ∀ p, sharedSquare.toProgram 5 4 = .ok p → ∀ x y : Binary64, ∃ known a b,
      sharedSquare.evaluate binary64 x y = some known ∧ valueAt known 5 = some a ∧ valueAt known 4 = some b ∧
        p.call binary64 x y = .ok (a, b) := by
  have hreachable : sharedSquare.Reachable := .after (.after (.after (.after .new _) _) _) _
  have hsize : sharedSquare.size = 6 := by rw [size, values_sharedSquare]; rfl
  refine toProgram_preserves_values hreachable ?_ ?_ ?_ ?_
  · rw [values_sharedSquare]
    decide
  · rw [values_sharedSquare]
    intro v hv hk
    simp only [List.mem_toArray, List.mem_cons, List.not_mem_nil, or_false] at hv
    rcases hv with rfl | rfl | rfl | rfl | rfl | rfl
    · cases hk
    · cases hk
    · cases hk
    · exact ⟨.mul, rfl⟩
    · exact ⟨.add, rfl⟩
    · exact ⟨.div, rfl⟩
  · exact (holds_natCast _ 5).2 (by omega)
  · exact (holds_natCast _ 4).2 (by omega)

end Programs

end ValueTable

end ComplexFormula
