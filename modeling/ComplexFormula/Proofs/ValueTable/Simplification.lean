import ComplexFormula.Proofs.ValueTable.Evaluation

/-!
# Simplified operations keep their meaning

A place of a table denotes a function of the point: the value of its entry, whatever has been added since (`Denotes`).
Over numbers in which the simplifying laws hold (`Arithmetic.Lawful`), an operation on two places gives a place that
denotes the operation on what they denote, provided that a constant it computes stands for the exact result
(`operate_denotes`). Which operation comes to a constant is told by `fold?`.
-/

namespace ComplexFormula

variable {K : Type}

/-- The laws by which operations are simplified. -/
structure Arithmetic.Lawful (A : Arithmetic K) (one : K) : Prop where
  constant_zero : A.constant [Byte.zero] = A.zero
  constant_one : A.constant [Byte.one] = one
  zero_add (k : K) : A.operate .add A.zero k = k
  add_zero (k : K) : A.operate .add k A.zero = k
  sub_zero (k : K) : A.operate .sub k A.zero = k
  zero_mul (k : K) : A.operate .mul A.zero k = A.zero
  mul_zero (k : K) : A.operate .mul k A.zero = A.zero
  one_mul (k : K) : A.operate .mul one k = k
  mul_one (k : K) : A.operate .mul k one = k
  div_one (k : K) : A.operate .div k one = k

/-! ## Folds -/

/-- An operation on two constants, given by their texts, that was computed at once. -/
structure Fold where
  op : Operator
  left : Bytes
  right : Bytes

/-- The text of the result reads as the operation on what the texts of the operands read as. -/
def Fold.Exact (A : Arithmetic K) (f : Fold) : Prop :=
  A.constant (Numeral.write (f.op.compute (Numeral.read f.left) (Numeral.read f.right))) =
    A.operate f.op (A.constant f.left) (A.constant f.right)

namespace ValueTable

/-- What an operation on two places computes at once, if it comes to a constant of its own. -/
def fold? (t : ValueTable) (op : Operator) (a b : Ref) : Option Fold :=
  match t.reduce op a b, t.get? a, t.get? b with
  | .ok (.value v), some x, some y => if v.isConstant then some ⟨op, x.text, y.text⟩ else none
  | _, _, _ => none

/-! ## Places and what they denote -/

/-- A well-formed table all of whose entries have values. -/
structure Sound (t : ValueTable) : Prop where
  wellFormed : t.WellFormed
  meaningful : t.Meaningful

/-- The value at a place, as a function of the point. -/
def Denotes (A : Arithmetic K) (t : ValueTable) (r : Ref) (f : K → K → K) : Prop :=
  ∀ (x y : K) (known : Array K), t.evaluate A x y = some known → valueAt known r = some (f x y)

variable {A : Arithmetic K} {t : ValueTable} {r a b : Ref} {v : Value} {f g : K → K → K}

theorem Denotes.holds (hs : t.Sound) (h : t.Denotes A r f) : t.holds r := by
  obtain ⟨known, hknown⟩ := exists_evaluate hs.meaningful A A.zero A.zero
  have hvalue := h _ _ known hknown
  cases r with
  | negSucc i => simp at hvalue
  | ofNat i =>
    have hi : known[i]? = some (f A.zero A.zero) := (valueAt_natCast known i).symm.trans hvalue
    have hlt := (Array.getElem?_eq_some_iff.1 hi).1
    rw [size_evaluate hknown] at hlt
    exact (t.holds_natCast i).2 hlt

/-- A place with a constant denotes the constant. -/
theorem Denotes.constant (hs : t.Sound) (h : t.Denotes A r f) (hv : t.get? r = some v) (hk : v.isConstant) (x y : K) :
    f x y = A.constant v.text := by
  obtain ⟨i, rfl, hi⟩ := get?_eq_some_iff.1 hv
  obtain ⟨known, hknown⟩ := exists_evaluate hs.meaningful A x y
  obtain ⟨k, hget, hvalue⟩ := getElem?_evaluate hknown hi
  have hkind : v.kind = .constant := by simpa [Value.isConstant] using hk
  have hf := h x y known hknown
  rw [valueAt_natCast, hget] at hf
  simp only [Value.value?, hkind, Option.some.injEq] at hvalue hf
  rw [← hf, hvalue]

theorem Denotes.text (hs : t.Sound) (h : t.Denotes A r f) (hv : t.get? r = some v) {text : Bytes}
    (htext : v.isText text) (x y : K) : f x y = A.constant text := by
  simp only [Value.isText, Bool.and_eq_true, beq_iff_eq] at htext
  rw [h.constant hs hv htext.1, htext.2]

theorem Denotes.eq_zero {one : K} (hA : A.Lawful one) (hs : t.Sound) (h : t.Denotes A r f) (hv : t.get? r = some v)
    (hzero : v.isZero) (x y : K) : f x y = A.zero := (h.text hs hv hzero x y).trans hA.constant_zero

theorem Denotes.eq_one {one : K} (hA : A.Lawful one) (hs : t.Sound) (h : t.Denotes A r f) (hv : t.get? r = some v)
    (hone : v.isOne) (x y : K) : f x y = one := (h.text hs hv hone x y).trans hA.constant_one

/-- A table has the operands of a value that is meaningful at its end. -/
theorem admits_of_meaningfulAt (h : v.MeaningfulAt t.size) : t.Admits v := by
  intro hk
  simp only [Value.MeaningfulAt, hk] at h
  obtain ⟨_, l, r, _, hl, hr, hlt, hrt⟩ := h
  rw [hl, hr, holds_natCast, holds_natCast]
  exact ⟨hlt, hrt⟩

theorem Sound.push (hs : t.Sound) (hfresh : t.index[v]? = none) (hv : v.MeaningfulAt t.size) : (t.push v).Sound where
  wellFormed := hs.wellFormed.push hfresh (admits_of_meaningfulAt hv)
  meaningful := by
    intro i w hw
    rw [values_push] at hw
    split at hw
    · rename_i hi
      cases hw
      rwa [hi]
    · exact hs.meaningful i w hw

/-- Adding an entry changes what no place denotes. -/
theorem Denotes.push (hs : t.Sound) (hv : v.MeaningfulAt t.size) (h : t.Denotes A r f) : (t.push v).Denotes A r f := by
  intro x y later hlater
  obtain ⟨known, hknown⟩ := exists_evaluate hs.meaningful A x y
  rw [← size_evaluate hknown] at hv
  obtain ⟨k, hk⟩ := hv.exists_value? (A := A) (x := x) (y := y)
  rw [evaluate_push hknown hk] at hlater
  cases hlater
  exact (agrees_push known k).valueAt (h x y known hknown)

/-- What a place denotes in `t` it denotes in `t'`. -/
def Extends (A : Arithmetic K) (t t' : ValueTable) : Prop :=
  ∀ ⦃r : Ref⦄ ⦃f : K → K → K⦄, t.Denotes A r f → t'.Denotes A r f

theorem Extends.refl (t : ValueTable) : t.Extends A t := fun _ _ h => h

theorem Extends.trans {t t' t'' : ValueTable} (h : t.Extends A t') (h' : t'.Extends A t'') : t.Extends A t'' :=
  fun _ _ hr => h' (h hr)

/-- A value that has `f` as its value at any place behind the table. -/
def Means (A : Arithmetic K) (t : ValueTable) (v : Value) (f : K → K → K) : Prop :=
  v.MeaningfulAt t.size ∧ ∀ (x y : K) (known : Array K), t.evaluate A x y = some known →
    ∀ i, v.value? A x y i known = some (f x y)

/-- **Interning** a value gives a place that denotes it. -/
theorem intern_denotes (hs : t.Sound) (hv : t.Means A v f) :
    ∃ r t', intern v t = (.ok r, t') ∧ t'.Sound ∧ t.Extends A t' ∧ t'.Denotes A r f := by
  rcases intern_cases v t with ⟨i, hi, hrun⟩ | ⟨_, hadm, _⟩ | ⟨hfresh, _, hrun⟩
  · refine ⟨i, t, hrun, hs, Extends.refl t, fun x y known hknown => ?_⟩
    obtain ⟨k, hget, hvalue⟩ := getElem?_evaluate hknown ((hs.wellFormed.indexed v i).1 hi)
    rw [hv.2 x y known hknown] at hvalue
    rw [valueAt_natCast, hget, hvalue]
  · exact absurd (admits_of_meaningfulAt hv.1) hadm
  · refine ⟨t.size, t.push v, hrun, hs.push hfresh hv.1, fun _ _ h => h.push hs hv.1, fun x y later hlater => ?_⟩
    obtain ⟨known, hknown⟩ := exists_evaluate hs.meaningful A x y
    rw [evaluate_push hknown (hv.2 x y known hknown known.size)] at hlater
    cases hlater
    rw [valueAt_natCast, ← size_evaluate hknown, Array.getElem?_push_size]

/-! ## Operations -/

theorem means_constant (t : ValueTable) (text : Bytes) : t.Means A (.constant text) fun _ _ => A.constant text :=
  ⟨trivial, fun _ _ _ _ _ => rfl⟩

theorem means_binary (hs : t.Sound) (op : Operator) (ha : t.Denotes A a f) (hb : t.Denotes A b g) :
    t.Means A (.binary op a b) fun x y => A.operate op (f x y) (g x y) := by
  obtain ⟨l, hl, hlt⟩ := holds_iff.1 (ha.holds hs)
  obtain ⟨r, hr, hrt⟩ := holds_iff.1 (hb.holds hs)
  refine ⟨⟨op, l, r, rfl, hl, hr, hlt, hrt⟩, fun x y known hknown i => ?_⟩
  exact Value.value?_binary rfl rfl (ha x y known hknown) (hb x y known hknown) i

/-- What an operation comes to has the value `f`. -/
def Yields (A : Arithmetic K) (t : ValueTable) (f : K → K → K) : Reduced → Prop
  | .place r => t.Denotes A r f
  | .value v => t.Means A v f

/-- An operation none of whose operands cancels. Two constants are folded, and the fold is exact. -/
theorem combined_yields {op : Operator} {u w : Value} (hs : t.Sound) (ha : t.Denotes A a f) (hb : t.Denotes A b g)
    (hu : t.get? a = some u) (hw : t.get? b = some w) (hreduce : t.reduce op a b = .ok (combined op a b u w))
    (hexact : ∀ fold ∈ t.fold? op a b, fold.Exact A) :
    t.Yields A (fun x y => A.operate op (f x y) (g x y)) (combined op a b u w) := by
  unfold combined at hreduce ⊢
  split
  · rename_i hconstant
    rw [if_pos hconstant] at hreduce
    rw [Bool.and_eq_true] at hconstant
    have hfold : t.fold? op a b = some ⟨op, u.text, w.text⟩ := by
      rw [fold?, hreduce, hu, hw]
      rfl
    have hvalue := hexact _ hfold
    have hf : (fun x y => A.operate op (f x y) (g x y)) = fun _ _ => A.constant
        (Numeral.write (op.compute (Numeral.read u.text) (Numeral.read w.text))) := by
      funext x y
      rw [ha.constant hs hu hconstant.1, hb.constant hs hw hconstant.2]
      exact hvalue.symm
    rw [hf]
    exact means_constant t _
  · exact means_binary hs op ha hb

/-- What an operation comes to, once both operands are at hand. -/
def simplified (op : Operator) (a b : Ref) (u w : Value) : Reduced :=
  match op with
  | .add => if u.isZero then .place b else if w.isZero then .place a else combined .add a b u w
  | .sub => if w.isZero then .place a else combined .sub a b u w
  | .mul =>
    if u.isZero then .place a else if w.isZero then .place b
    else if u.isOne then .place b else if w.isOne then .place a else combined .mul a b u w
  | .div =>
    if w.isOne then .place a else if (Numeral.read w.text).isZero then .value (.binary .div a b)
    else combined .div a b u w

theorem reduce_eq {u w : Value} (hu : t.get? a = some u) (hw : t.get? b = some w) (op : Operator) :
    t.reduce op a b = .ok (simplified op a b u w) := by
  have hu' := get_eq_ok hu
  have hw' := get_eq_ok hw
  cases op <;> simp only [reduce, simplified, hu', hw', bind, Except.bind, pure, Except.pure] <;> grind

/-- The only constants that an operation makes are written values. -/
theorem reduce_value {op : Operator} (h : t.reduce op a b = .ok (.value v)) :
    v = .binary op a b ∨ ∃ x, v = .constant (Numeral.write x) := by
  have hcombined : ∀ x y : Value, combined op a b x y = .value v →
      v = .binary op a b ∨ ∃ z, v = .constant (Numeral.write z) := by
    intro x y heq
    cases heq
    split
    · exact .inr ⟨_, rfl⟩
    · exact .inl rfl
  rcases ha : t.get a with e | x <;> rcases hb : t.get b with e' | y <;> cases op <;>
    simp only [reduce, ha, hb, bind, Except.bind, pure, Except.pure] at h <;> grind

theorem Denotes.congr (h : t.Denotes A r f) (heq : ∀ x y, g x y = f x y) : t.Denotes A r g := by
  intro x y known hknown
  rw [heq]
  exact h x y known hknown

/-- **What an operation comes to** has the value of the operation. -/
theorem reduce_yields {one : K} (hA : A.Lawful one) (hs : t.Sound) (op : Operator) (ha : t.Denotes A a f)
    (hb : t.Denotes A b g) (hexact : ∀ fold ∈ t.fold? op a b, fold.Exact A) :
    ∃ reduced, t.reduce op a b = .ok reduced ∧ t.Yields A (fun x y => A.operate op (f x y) (g x y)) reduced := by
  obtain ⟨u, hu⟩ := exists_get?_of_holds (ha.holds hs)
  obtain ⟨w, hw⟩ := exists_get?_of_holds (hb.holds hs)
  have hreduce := reduce_eq hu hw op
  have hcombined : simplified op a b u w = combined op a b u w →
      t.Yields A (fun x y => A.operate op (f x y) (g x y)) (combined op a b u w) :=
    fun h => combined_yields hs ha hb hu hw (h ▸ hreduce) hexact
  refine ⟨_, hreduce, ?_⟩
  cases op with
  | add =>
    dsimp only [simplified] at hcombined ⊢
    split
    · rename_i hu₀
      exact hb.congr fun x y => by rw [ha.eq_zero hA hs hu hu₀, hA.zero_add]
    split
    · rename_i hw₀
      exact ha.congr fun x y => by rw [hb.eq_zero hA hs hw hw₀, hA.add_zero]
    · rename_i hu₀ hw₀
      rw [if_neg hu₀, if_neg hw₀] at hcombined
      exact hcombined rfl
  | sub =>
    dsimp only [simplified] at hcombined ⊢
    split
    · rename_i hw₀
      exact ha.congr fun x y => by rw [hb.eq_zero hA hs hw hw₀, hA.sub_zero]
    · rename_i hw₀
      rw [if_neg hw₀] at hcombined
      exact hcombined rfl
  | mul =>
    dsimp only [simplified] at hcombined ⊢
    split
    · rename_i hu₀
      exact ha.congr fun x y => by rw [ha.eq_zero hA hs hu hu₀, hA.zero_mul]
    split
    · rename_i hw₀
      exact hb.congr fun x y => by rw [hb.eq_zero hA hs hw hw₀, hA.mul_zero]
    split
    · rename_i hu₁
      exact hb.congr fun x y => by rw [ha.eq_one hA hs hu hu₁, hA.one_mul]
    split
    · rename_i hw₁
      exact ha.congr fun x y => by rw [hb.eq_one hA hs hw hw₁, hA.mul_one]
    · rename_i hu₀ hw₀ hu₁ hw₁
      rw [if_neg hu₀, if_neg hw₀, if_neg hu₁, if_neg hw₁] at hcombined
      exact hcombined rfl
  | div =>
    dsimp only [simplified] at hcombined ⊢
    split
    · rename_i hw₁
      exact ha.congr fun x y => by rw [hb.eq_one hA hs hw hw₁, hA.div_one]
    split
    · exact means_binary hs .div ha hb
    · rename_i hw₁ hw₀
      rw [if_neg hw₁, if_neg hw₀] at hcombined
      exact hcombined rfl

/-- **An operation** on two places gives a place that denotes its result. -/
theorem operate_denotes {one : K} (hA : A.Lawful one) (hs : t.Sound) (op : Operator) (ha : t.Denotes A a f)
    (hb : t.Denotes A b g) (hexact : ∀ fold ∈ t.fold? op a b, fold.Exact A) :
    ∃ r t', operate op a b t = (.ok r, t') ∧ t'.Sound ∧ t.Extends A t' ∧
      t'.Denotes A r fun x y => A.operate op (f x y) (g x y) := by
  obtain ⟨reduced, hreduce, hyields⟩ := reduce_yields hA hs op ha hb hexact
  unfold operate
  rw [hreduce]
  cases reduced with
  | place r => exact ⟨r, t, rfl, hs, Extends.refl t, hyields⟩
  | value v => exact intern_denotes hs hyields

end ValueTable

end ComplexFormula
