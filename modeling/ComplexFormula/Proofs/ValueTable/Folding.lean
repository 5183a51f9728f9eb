import ComplexFormula.Proofs.Compilation
import ComplexFormula.Proofs.Numeral.Shortest
import ComplexFormula.Proofs.Program.Structure
import ComplexFormula.Proofs.ValueTable.Calls
import ComplexFormula.Proofs.ValueTable.Sharing
import Mathlib

/-!
# Folding is exact

An operation on two constants is computed at once, and its result goes into the table as a text. The text is read again
whenever the program runs or another operation is computed, and nothing is lost on the way: what is written reads back,
and is as short as can be. So the constant has the value that the operation on the two constants would have had
(`folding_exact`), alone and in the programs that are emitted.
-/

namespace ComplexFormula

namespace ValueTable

variable {t t' : ValueTable} {a b r : Ref} {u v w : Value} {op : Operator}

/-! ## What is folded -/

/-- An operation that comes to a constant works on two constants, and the constant is the text of its result. -/
theorem eq_folded_of_reduce (hu : t.get? a = some u) (hw : t.get? b = some w)
    (h : t.reduce op a b = .ok (.value v)) (hv : v.isConstant) : u.isConstant ∧ w.isConstant ∧ v = folded op u w := by
  rw [reduce_eq hu hw, Except.ok.injEq] at h
  have hbinary : ∀ op, ¬(Value.binary op a b).isConstant := fun op => by simp [Value.isConstant, Value.binary]
  have hcombined : combined op a b u w = .value v → u.isConstant ∧ w.isConstant ∧ v = folded op u w := by
    rintro ⟨⟩
    split at hv
    · rename_i hconstant
      rw [Bool.and_eq_true] at hconstant
      rw [if_pos (by rw [hconstant.1, hconstant.2]; rfl)]
      exact ⟨hconstant.1, hconstant.2, rfl⟩
    · exact absurd hv (hbinary op)
  cases op <;> dsimp only [simplified] at h <;> grind

/-- The constant and the operation have one value, wherever they stand. -/
theorem eval_folded (op : Operator) (u w : Value) (args temps : Array Binary64) :
    (Expr.const (folded op u w).text).eval binary64 args temps =
      (Expr.binary op.symbol (.const u.text) (.const w.text)).eval binary64 args temps := by
  have hbinary : (Expr.binary op.symbol (.const u.text) (.const w.text)).eval binary64 args temps =
      .ok (op.compute (Numeral.read u.text) (Numeral.read w.text)) := eval_binary rfl rfl
  rw [hbinary]
  exact congrArg Except.ok (Numeral.read_write _)

/-- A constant is written out wherever it is used. -/
theorem RefersTo.eq_const_of_sharedOperations {re im : Ref} {e : Expr} (he : t.RefersTo (t.sharedOperations re im) r e)
    (hv : t.get? r = some v) (hk : v.kind = .constant) : e = .const v.text := by
  cases he with
  | temporary h =>
    obtain ⟨-, hbinary, -⟩ := mem_sharedOperations.1 (List.mem_of_getElem? h)
    obtain ⟨x, hx, hkind⟩ := isBinary_iff.1 hbinary
    rw [get?_natCast, hx] at hv
    cases hv
    rw [hk] at hkind
    cases hkind
  | argument hx hkind =>
    rw [get?_natCast, hx] at hv
    cases hv
    rw [hk] at hkind
    cases hkind
  | constant hx _ =>
    rw [get?_natCast, hx] at hv
    cases hv
    rfl
  | operation _ hx hkind _ _ =>
    rw [get?_natCast, hx] at hv
    cases hv
    rw [hk] at hkind
    cases hkind

/-! ## What places denote -/

variable {K : Type} {A : Arithmetic K}

theorem denotes_constant (hv : t.get? r = some v) (hk : v.kind = .constant) :
    t.Denotes A r fun _ _ => A.constant v.text := by
  intro x y known hknown
  obtain ⟨i, rfl, hi⟩ := get?_eq_some_iff.1 hv
  obtain ⟨k, hget, hvalue⟩ := getElem?_evaluate hknown hi
  simp only [Value.value?, hk, Option.some.injEq] at hvalue
  rw [valueAt_natCast, hget, hvalue]

/-- Every place of a sound table denotes something. -/
theorem exists_denotes (hs : t.Sound) (hr : t.holds r) (A : Arithmetic K) : ∃ f, t.Denotes A r f := by
  obtain ⟨i, rfl, hi⟩ := holds_iff.1 hr
  have hvalues : ∀ x y, ∃ k, ∀ known, t.evaluate A x y = some known → valueAt known i = some k := by
    intro x y
    obtain ⟨known, hknown⟩ := exists_evaluate hs.meaningful A x y
    have hlt : i < known.size := by rwa [size_evaluate hknown]
    refine ⟨known[i], fun later hlater => ?_⟩
    cases hknown.symm.trans hlater
    rw [valueAt_natCast, Array.getElem?_eq_getElem hlt]
  choose f hf using hvalues
  exact ⟨f, fun x y known hknown => hf x y known hknown⟩

/-! ## Folding -/

/-- What the operation on the constants `u` and `w` at the places `a` and `b` has become: it was folded into the place `r`
of the table `t'`. -/
structure FoldedInto (t : ValueTable) (op : Operator) (a b : Ref) (u w : Value) (r : Ref) (t' : ValueTable) : Prop where
  entry : t'.get? r = some (folded op u w)
  /-- The constant has the value of the operation, wherever it stands. -/
  value : ∀ args temps : Array Binary64, (Expr.const (folded op u w).text).eval binary64 args temps =
    (Expr.binary op.symbol (.const u.text) (.const w.text)).eval binary64 args temps
  /-- It is what every program with the place as a result has there. -/
  result : ∀ c p, (t'.toProgram r c = .ok p → p.re = .const (folded op u w).text) ∧
    (t'.toProgram c r = .ok p → p.im = .const (folded op u w).text)
  /-- If all entries have values, there are a program with the constant and one with the operation, and they compute the
  same. -/
  programs : t.Meaningful → ∀ c, t.holds c → ∃ r₁ t₁ p p₁, intern (.binary op a b) t = (.ok r₁, t₁) ∧
    t'.toProgram r c = .ok p ∧ t₁.toProgram r₁ c = .ok p₁ ∧
    ∀ x y, ∃ k, p.call binary64 x y = .ok (op.compute (Numeral.read u.text) (Numeral.read w.text), k) ∧
      p₁.call binary64 x y = .ok (op.compute (Numeral.read u.text) (Numeral.read w.text), k)

/-- An operation that comes to a constant is folded. -/
theorem exists_foldedInto (ht : t.WellFormed) (hu : t.get? a = some u) (hw : t.get? b = some w)
    (h : t.reduce op a b = .ok (.value v)) (hv : v.isConstant) :
    ∃ r t', operate op a b t = (.ok r, t') ∧ t.FoldedInto op a b u w r t' := by
  obtain ⟨huc, hwc, rfl⟩ := eq_folded_of_reduce hu hw h hv
  have hoperate : operate op a b t = intern (folded op u w) t := by rw [operate, h]
  obtain ⟨r, t', hrun, -⟩ := intern_of_admits ht (admits_constant t (folded op u w).text)
  obtain ⟨i, rfl, hi⟩ := ht.getElem?_of_intern hrun
  have hentry : t'.get? i = some (folded op u w) := (t'.get?_natCast i).trans hi
  have ht' : t'.WellFormed := by
    have hkept := additive_wellFormed.constant (folded op u w).text t ht
    rwa [constant, hrun] at hkept
  refine ⟨i, t', hoperate.trans hrun, hentry, eval_folded op u w, fun c p => ⟨fun hp => ?_, fun hp => ?_⟩,
    fun hm c hc => ?_⟩
  · exact (emits_of_toProgram ht' hp).re.eq_const_of_sharedOperations hentry rfl
  · exact (emits_of_toProgram ht' hp).im.eq_const_of_sharedOperations hentry rfl
  · have hs : t.Sound := ⟨ht, hm⟩
    have hkind : ∀ {x : Value}, x.isConstant → x.kind = .constant := fun hx => by simpa [Value.isConstant] using hx
    obtain ⟨f, hf⟩ := exists_denotes hs hc binary64
    have ha : t.Denotes binary64 a _ := denotes_constant hu (hkind huc)
    have hb : t.Denotes binary64 b _ := denotes_constant hw (hkind hwc)
    -- the table with the constant, and the one with the operation
    obtain ⟨r₀, t₀, hrun₀, hs₀, hext₀, hr₀⟩ := intern_denotes hs (means_constant (A := binary64) t (folded op u w).text)
    obtain ⟨r₁, t₁, hrun₁, hs₁, hext₁, hr₁⟩ := intern_denotes hs (means_binary hs op ha hb)
    cases hrun.symm.trans hrun₀
    obtain ⟨p, hp, hcall⟩ := call_of_denotes hs₀ hr₀ (hext₀ hf)
    obtain ⟨p₁, hp₁, hcall₁⟩ := call_of_denotes hs₁ hr₁ (hext₁ hf)
    refine ⟨r₁, t₁, p, p₁, hrun₁, hp, hp₁, fun x y => ⟨f x y, ?_, hcall₁ x y⟩⟩
    rw [hcall x y]
    exact congrArg (fun z => Except.ok (z, f x y)) (Numeral.read_write _)

/-- **Folding is exact.** Every value reads back from its text; a number is read as the nearest value, and the text of a
finite value that is not zero is the shortest one; and an operation on two constants that is folded has become a constant
with the value that the operation would have. -/
theorem folding_exact :
    (∀ v : Binary64, Numeral.read (Numeral.write v) = v) ∧
    (∀ (p : Lexeme.Parts) (text : Bytes) (negative : Bool), Lexeme.Spelled p text → p.Counted →
      ∃ m, Numeral.read (Lexeme.signOf negative ++ text) = .number negative m ∧ Magnitude.IsNearest p.toRat m) ∧
    (∀ (negative : Bool) (m : Magnitude), ¬m.isInfinite → ¬m.isZero → ∃ text ds e,
      Numeral.write (.number negative m) = Lexeme.signOf negative ++ text ∧ Numeral.IsShortest m text ds e) ∧
    ∀ {t : ValueTable} {op : Operator} {a b : Ref} {u w v : Value}, t.Reachable → t.get? a = some u → t.get? b = some w →
      t.reduce op a b = .ok (.value v) → v.isConstant →
      ∃ r t', operate op a b t = (.ok r, t') ∧ t.FoldedInto op a b u w r t' := by
  refine ⟨Numeral.read_write, fun p text negative hp hcounted => hp.read_isNearest hcounted negative,
    fun negative m hinfinite hzero => ?_, fun ht hu hw h hv => exists_foldedInto ht.wellFormed hu hw h hv⟩
  obtain ⟨ds, e, hshortest⟩ := Numeral.layout_isShortest hinfinite hzero
  refine ⟨_, ds, e, ?_, hshortest⟩
  rw [Numeral.write, if_neg hinfinite, if_neg hzero, ← Lexeme.signOf]

/-- Two constants whose sum is not the one that their texts suggest. -/
def tenths : ValueTable := (new.after (.constant (bytes "0.1"))).after (.constant (bytes "0.2"))

theorem values_tenths : tenths.values =
    #[.argument (bytes "re"), .argument (bytes "im"), .constant (bytes "0.1"), .constant (bytes "0.2")] := by cbv

theorem folding_exact_tenths :
    (folded .add (.constant (bytes "0.1")) (.constant (bytes "0.2"))).text = bytes "0.30000000000000004" ∧
      tenths.Meaningful ∧ ∃ r t', operate .add 2 3 tenths = (.ok r, t') ∧
        tenths.FoldedInto .add 2 3 (.constant (bytes "0.1")) (.constant (bytes "0.2")) r t' := by
  have hu : tenths.get? 2 = some (.constant (bytes "0.1")) := by
    rw [show (2 : Ref) = (2 : Nat) from rfl, get?_natCast, values_tenths]
    rfl
  have hw : tenths.get? 3 = some (.constant (bytes "0.2")) := by
    rw [show (3 : Ref) = (3 : Nat) from rfl, get?_natCast, values_tenths]
    rfl
  refine ⟨by decide +kernel, ?_, ?_⟩
  · intro i v hv
    rw [values_tenths] at hv
    match i with
    | 0 => cases hv; exact Nat.zero_lt_two
    | 1 => cases hv; exact Nat.one_lt_two
    | 2 => cases hv; trivial
    | 3 => cases hv; trivial
  · exact folding_exact.2.2.2 (.after (.after .new _) _) hu hw (reduce_eq hu hw .add) rfl

end ValueTable

end ComplexFormula
