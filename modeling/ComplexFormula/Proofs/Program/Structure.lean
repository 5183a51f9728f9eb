import ComplexFormula.Compilation
import ComplexFormula.Proofs.Program.SingleAssignment

/-!
# What emitted programs are made of

An emitted program assigns the operations that have temporaries, in their order, and then gives its results. Every
expression in it writes out or refers to a known entry of the table (`Emits`). This holds whenever emission succeeds
(`emits_of_toProgram`), also if the table has entries that mean nothing: those were not needed then.

All statements here start from a success and look for its reasons, so they are inversions of `expand`, `refer` and
`assignments`.
-/

namespace ComplexFormula

namespace ValueTable

variable {t : ValueTable} {shared : BitSet} {re im : Ref} {p : Program}

/-! ## Inversions -/

section Inversions

theorem refer_cases {i : Nat} {e : Expr} (he : t.refer shared (i : Ref) = .ok e) :
    (shared.contains i ∧ e = .temp (shared.rank i)) ∨ (¬shared.contains i ∧ t.expand shared i = .ok e) := by
  unfold refer temporary? at he
  rw [Int.toNat_natCast] at he
  by_cases hc : shared.contains i
  · simp only [hc, if_true, Except.ok.injEq] at he
    exact .inl ⟨hc, he.symm⟩
  · simp only [hc, Bool.false_eq_true, if_false] at he
    exact .inr ⟨hc, he⟩

/-- An operation was expanded by referring to both of its operands. -/
theorem expand_binary_inv {i l r : Nat} {v : Value} {e : Expr} (hv : t.values[i]? = some v) (hk : v.kind = .binary)
    (hl : v.left = l) (hr : v.right = r) (hlt : l < i) (hrt : r < i) (he : t.expand shared i = .ok e) :
    ∃ a b, t.refer shared (l : Ref) = .ok a ∧ t.refer shared (r : Ref) = .ok b ∧ e = .binary v.symbol a b := by
  rw [expand, hv] at he
  simp only [hk, hl, hr, Int.toNat_natCast] at he
  rw [dif_pos ⟨hlt, hrt⟩] at he
  unfold refer
  simp only [Int.toNat_natCast]
  cases hl' : temporary? shared l <;> cases hr' : temporary? shared r <;> simp only [hl', hr'] at he ⊢ <;>
    simp only [bind, Except.bind] at he <;> grind

theorem expand_cases (h : t.WellFormed) {i : Nat} {e : Expr} (he : t.expand shared i = .ok e) :
    ∃ v, t.values[i]? = some v ∧
      ((v.kind = .argument ∧ e = .arg i v.text) ∨ (v.kind = .constant ∧ e = .const v.text) ∨
        (v.kind = .binary ∧ ∃ (l r : Nat) (a b : Expr), v.left = l ∧ v.right = r ∧ l < i ∧ r < i ∧
          t.refer shared (l : Ref) = .ok a ∧ t.refer shared (r : Ref) = .ok b ∧ e = .binary v.symbol a b)) := by
  cases hv : t.values[i]? with
  | none =>
    rw [expand, hv] at he
    cases he
  | some v =>
    refine ⟨v, rfl, ?_⟩
    cases hk : v.kind with
    | argument =>
      rw [expand, hv] at he
      simp only [hk, Except.ok.injEq] at he
      exact .inl ⟨rfl, he.symm⟩
    | constant =>
      rw [expand, hv] at he
      simp only [hk, Except.ok.injEq] at he
      exact .inr (.inl ⟨rfl, he.symm⟩)
    | binary =>
      obtain ⟨l, r, hl, hr, hlt, hrt⟩ := h.operands i v hv hk
      obtain ⟨a, b, ha, hb, rfl⟩ := expand_binary_inv hv hk hl hr hlt hrt he
      exact .inr (.inr ⟨rfl, l, r, a, b, hl, hr, hlt, hrt, ha, hb, rfl⟩)
    | other code =>
      rw [expand, hv] at he
      simp [hk] at he

/-- An expansion that succeeds writes out its entry. -/
theorem expands_of_expand (h : t.WellFormed) {i : Nat} {e : Expr} (he : t.expand shared i = .ok e) :
    t.Expands shared.elements i e := by
  induction i using Nat.strongRecOn generalizing e with
  | _ i ih =>
    have hrefer : ∀ (j : Nat) (a : Expr), j < i → t.refer shared (j : Ref) = .ok a →
        t.RefersTo shared.elements j a := by
      intro j a hj ha
      apply refersTo_of_standsFor
      rcases refer_cases ha with ⟨hc, rfl⟩ | ⟨hc, ha⟩
      · exact .inl ⟨hc, rfl⟩
      · exact .inr ⟨hc, ih j hj ha⟩
    obtain ⟨v, hv, ⟨hk, rfl⟩ | ⟨hk, rfl⟩ | ⟨hk, l, r, a, b, hl, hr, hlt, hrt, ha, hb, rfl⟩⟩ := expand_cases h he
    · exact (RefersTo.argument hv hk).expands hv (by rw [hk]; decide)
    · exact (RefersTo.constant hv hk).expands hv (by rw [hk]; decide)
    · have ha' : t.RefersTo shared.elements v.left a := hl ▸ hrefer l a hlt ha
      have hb' : t.RefersTo shared.elements v.right b := hr ▸ hrefer r b hrt hb
      refine ⟨fun hi => .operation hi hv hk ha' hb', fun w hw _ => ?_⟩
      rw [hv] at hw
      cases hw
      exact ⟨a, b, rfl, ha', hb'⟩

theorem refersTo_of_refer (h : t.WellFormed) {r : Ref} {e : Expr} (hr : t.holds r) (he : t.refer shared r = .ok e) :
    t.RefersTo shared.elements r e := by
  obtain ⟨i, rfl, -⟩ := holds_iff.1 hr
  apply refersTo_of_standsFor
  rcases refer_cases he with ⟨hc, rfl⟩ | ⟨hc, he⟩
  · exact .inl ⟨hc, rfl⟩
  · exact .inr ⟨hc, expands_of_expand h he⟩

theorem exists_expand_of_assignments {is : List Nat} {first : Nat} {assigns : List Assign}
    (h : t.assignments shared first is = .ok assigns) : ∀ i ∈ is, ∃ e, t.expand shared i = .ok e := by
  induction is generalizing first assigns with
  | nil => exact nofun
  | cons i is ih =>
    simp only [assignments, bind, Except.bind] at h
    cases he : t.expand shared i with
    | error e =>
      rw [he] at h
      cases h
    | ok e =>
      cases hrest : t.assignments shared (first + 1) is with
      | error e' =>
        rw [he, hrest] at h
        cases h
      | ok later =>
        intro j hj
        rcases List.mem_cons.1 hj with rfl | hj
        · exact ⟨e, he⟩
        · exact ih hrest j hj

/-- A program that was emitted was put together from its parts. -/
theorem toProgram_inv (hp : t.toProgram re im = .ok p) :
    t.holds re ∧ t.holds im ∧ t.strayArgument? = none ∧
      t.assignments (t.shared re im) 0 (t.shared re im).elements = .ok p.assigns ∧
      t.refer (t.shared re im) re = .ok p.re ∧ t.refer (t.shared re im) im = .ok p.im ∧
      p.temps = (t.shared re im).size := by
  unfold toProgram at hp
  by_cases hre : t.holds re <;> by_cases him : t.holds im <;>
    simp only [hre, him, Bool.not_true, Bool.not_false, Bool.false_eq_true, if_false, if_true, reduceCtorEq] at hp
  cases hstray : t.strayArgument? with
  | some stray => simp [hstray] at hp
  | none =>
    simp only [hstray, assemble, bind, Except.bind] at hp
    cases hassigns : t.assignments (t.shared re im) 0 (t.shared re im).elements with
    | error e => simp [hassigns] at hp
    | ok assigns =>
      cases ha : t.refer (t.shared re im) re with
      | error e => simp [hassigns, ha] at hp
      | ok a =>
        cases hb : t.refer (t.shared re im) im with
        | error e => simp [hassigns, ha, hb] at hp
        | ok b =>
          simp only [hassigns, ha, hb, Except.ok.injEq] at hp
          subst hp
          exact ⟨hre, him, rfl, rfl, rfl, rfl, rfl⟩

end Inversions

/-! ## Programs -/

section Programs

/-- The program assigns the operations in `named`, in their order, and has `re` and `im` as its results. -/
structure Emits (t : ValueTable) (named : List Nat) (re im : Ref) (p : Program) : Prop where
  temps : p.temps = p.assigns.length
  length : p.assigns.length = named.length
  assign : ∀ (k : Nat) (a : Assign), p.assigns[k]? = some a → a.temp = k ∧ ∃ (i : Nat) (v : Value),
    named[k]? = some i ∧ t.values[i]? = some v ∧ v.kind = .binary ∧ t.WritesOut named v a.expr
  re : t.RefersTo named re p.re
  im : t.RefersTo named im p.im

theorem emits_of_toProgram (h : t.WellFormed) (hp : t.toProgram re im = .ok p) :
    t.Emits (t.sharedOperations re im) re im p := by
  obtain ⟨hre, him, -, hassigns, ha, hb, htemps⟩ := toProgram_inv hp
  have helements := elements_shared h hre him
  obtain ⟨assigns, hassigns', hlength, hall⟩ := exists_assignments (exists_expand_of_assignments hassigns) 0
  obtain rfl : p.assigns = assigns := Except.ok.inj (hassigns.symm.trans hassigns')
  have hlength' := helements ▸ hlength
  refine ⟨?_, hlength', fun k a hk => ?_, ?_, ?_⟩
  · rw [htemps, BitSet.size_eq, hlength]
  · obtain ⟨i, hi, htemp, hexpand⟩ := hall k a hk
    rw [helements] at hi
    obtain ⟨-, hbinary, -⟩ := mem_sharedOperations.1 (List.mem_of_getElem? hi)
    obtain ⟨v, hv, hkind⟩ := isBinary_iff.1 hbinary
    have hout := (expands_of_expand h hexpand).2 v hv hkind
    rw [helements] at hout
    exact ⟨by rw [htemp, Nat.zero_add], i, v, hi, hv, hkind, hout⟩
  · rw [← helements]
    exact refersTo_of_refer h hre ha
  · rw [← helements]
    exact refersTo_of_refer h him hb

/-- The entry that an assignment of the program writes out. -/
theorem Emits.exists_entry {named : List Nat} (h : t.Emits named re im p) {a : Assign} (ha : a ∈ p.assigns) :
    ∃ v ∈ t.values, v.kind = .binary ∧ t.WritesOut named v a.expr := by
  obtain ⟨k, hk⟩ := List.mem_iff_getElem?.1 ha
  obtain ⟨-, i, v, -, hv, hkind, hout⟩ := h.assign k a hk
  exact ⟨v, Array.mem_of_getElem? hv, hkind, hout⟩

end Programs

end ValueTable

/-! ## Programs of formulas -/

theorem Formula.compile_eq_ok {x : Formula} {p : Program} (h : x.compile = .ok p) :
    ∃ c t, x.decompose .new = (.ok c, t) ∧ t.toProgram c.re c.im = .ok p := by
  have hrun : x.decompose.run.run .new = x.decompose .new := rfl
  rw [Formula.compile, hrun] at h
  rcases hdec : x.decompose .new with ⟨e | c, t⟩
  · rw [hdec] at h
    cases h
  · rw [hdec] at h
    refine ⟨c, t, rfl, ?_⟩
    simp only [Components.toProgram] at h
    cases hp : t.toProgram c.re c.im with
    | error e =>
      rw [hp] at h
      cases h
    | ok q =>
      rw [hp] at h
      cases h
      rfl

end ComplexFormula
