import ComplexFormula.Proofs.Totality
import ComplexFormula.Proofs.ValueTable.Sharing

/-!
# Simplified tables are in normal form

A table whose operations were all asked for by way of the simplifier is *normal*: no rule applies to an operation in it, so
that asking for the operation again gives its place (`Normal.operate_again`). Operands never change, so this stays true
whatever is added later. In particular nothing is left to compute on two constants, except for a division by zero.

A formula without the argument is made of constants only. Its texts can be computed without a table (`textual`), and
decomposing it adds constants with just these texts (`fold_texts`), as long as no denominator reads as zero.
-/

namespace ComplexFormula

open Build

namespace ValueTable

variable {t t' : ValueTable} {v : Value} {op : Operator} {a b r : Ref}

/-! ## Normal tables -/

section Normal

/-- Every operation in the table is what simplifying it comes to. -/
def Normal (t : ValueTable) : Prop :=
  ∀ (i : Nat) (v : Value), t.values[i]? = some v → v.kind = .binary → ∃ op, t.reduce op v.left v.right = .ok (.value v)

/-- Adding a value that is no operation, or that simplifying comes to, keeps a table normal. -/
theorem Normal.push (h : t.Normal) (hv : v.kind = .binary → ∃ op, t.reduce op v.left v.right = .ok (.value v)) :
    (t.push v).Normal := by
  intro i w hw hk
  have hreduce : ∃ op, t.reduce op w.left w.right = .ok (.value w) := by
    rw [values_push] at hw
    split at hw
    · cases hw
      exact hv hk
    · exact h i w hw hk
  obtain ⟨op, hop⟩ := hreduce
  exact ⟨op, (within_push t v).reduce hop⟩

theorem Normal.intern (h : t.Normal) (hv : v.kind = .binary → ∃ op, t.reduce op v.left v.right = .ok (.value v)) :
    (intern v t).2.Normal := by
  rcases intern_cases v t with ⟨i, -, hrun⟩ | ⟨-, -, hrun⟩ | ⟨-, -, hrun⟩
  · rwa [hrun]
  · rwa [hrun]
  · rw [hrun]
    exact h.push hv

theorem keeps_normal_constant (text : Bytes) : Keeps Normal (constant text) := fun _ h => h.intern nofun

/-- An operation adds the value that it comes to. If that is an operation, it is the one that was asked for. -/
theorem keeps_normal_operate (op : Operator) (a b : Ref) : Keeps Normal (operate op a b) := by
  intro t h
  unfold operate
  split
  · exact h
  · rename_i v hreduce
    refine h.intern fun hk => ⟨op, ?_⟩
    rcases reduce_value hreduce with rfl | ⟨x, rfl⟩
    · exact hreduce
    · cases hk
  · exact h

theorem normal_new : new.Normal := by
  intro i v hv hk
  obtain ⟨l, r, -, -, hl, hr⟩ := wellFormed_new.operands i v hv hk
  have hi : i < 2 := lt_size_of_getElem? hv
  obtain rfl : i = 1 := by omega
  rw [wellFormed_new.imaginary] at hv
  cases hv
  cases hk

/-- Requests by which an operation gets into the table only through the simplifier. -/
def Request.IsSimplified : Request → Prop
  | .intern _ => False
  | .constant _ | .operate .. | .number _ | .name _ | .combine .. | .record _ => True

theorem Normal.after (h : t.Normal) {request : Request} (hrequest : request.IsSimplified) : (t.after request).Normal := by
  cases request with
  | intern v => exact hrequest.elim
  | constant text => exact keeps_normal_constant text t h
  | operate op a b => exact keeps_normal_operate op a b t h
  | number text => exact keeps_number keeps_normal_constant text t h
  | name id => exact keeps_name keeps_normal_constant id t h
  | combine op a b => exact (Keeps.operation keeps_normal_operate op a b).adapt _ t h
  | record on => exact h

theorem Leads.normal (h : t.Leads Request.IsSimplified t') (ht : t.Normal) : t'.Normal := by
  induction h with
  | refl => exact ht
  | tail _ hstep ih =>
    obtain ⟨request, hrequest, rfl⟩ := hstep
    exact ih.after hrequest

/-- **Asking again** for what simplifying came to gives its place, on all later tables. -/
theorem operate_again (hreduce : t.reduce op a b = .ok (.value v)) {i : Nat} (hi : t.values[i]? = some v)
    (hwithin : t.Within t') (ht' : t'.WellFormed) : operate op a b t' = (.ok (i : Ref), t') := by
  unfold operate
  rw [hwithin.reduce hreduce]
  exact ht'.intern_eq (hwithin i v hi)

/-- The only operations on two constants that are left as they are divide by zero. -/
theorem simplified_constants_inv {u w : Value} (hu : u.isConstant) (hw : w.isConstant)
    (h : simplified op a b u w = .value (.binary op a b)) : op = .div ∧ (Numeral.read w.text).isZero := by
  have hcombined : ∀ op, combined op a b u w ≠ .value (.binary op a b) := by
    intro op heq
    simp only [combined, hu, hw, Bool.and_self, if_true, Reduced.value.injEq] at heq
    cases heq
  cases op <;> simp only [simplified] at h <;> grind

end Normal

end ValueTable

/-! ## Operations on texts -/

section Texts

/-- The operations on constants, as operations on their texts. -/
def textual : Arithmetic Bytes where
  zero := [Byte.zero]
  operate op x y :=
    let computed := Numeral.write (op.compute (Numeral.read x) (Numeral.read y))
    match op with
    | .add => if x = [Byte.zero] then y else if y = [Byte.zero] then x else computed
    | .sub => if y = [Byte.zero] then x else computed
    | .mul =>
      if x = [Byte.zero] ∨ y = [Byte.zero] then [Byte.zero] else if x = [Byte.one] then y else if y = [Byte.one] then x
      else computed
    | .div => if y = [Byte.one] then x else computed
  constant := id

/-- The denominator of a quotient by a pair. -/
def Arithmetic.norm {K : Type} (A : Arithmetic K) (q : K × K) : K :=
  A.operate .add (A.operate .mul q.1 q.1) (A.operate .mul q.2 q.2)

namespace Formula

/-- The texts of both components of a formula without the argument. -/
def texts (x : Formula) : Option (Bytes × Bytes) := x.value textual [Byte.one] (bytes "re") (bytes "im")

/-- The denominators of all divisions in a formula. -/
def denominators : Formula → List Bytes
  | .hole | .number _ | .name _ => []
  | .binary b l r =>
    l.denominators ++ r.denominators ++ if b = Operator.div.symbol then (r.texts.map textual.norm).toList else []

end Formula

namespace ValueTable

variable {t t' : ValueTable} {op : Operator} {a b r : Ref} {x y : Bytes}

/-- A well-formed table without operations. -/
structure Plain (t : ValueTable) : Prop where
  wellFormed : t.WellFormed
  no_operation : ∀ v ∈ t.values, v.kind ≠ .binary

/-- The place holds the constant with the given text. -/
def ConstantAt (t : ValueTable) (r : Ref) (x : Bytes) : Prop := t.get? r = some (.constant x)

theorem ConstantAt.mono (h : t.ConstantAt r x) (hwithin : t.Within t') : t'.ConstantAt r x := hwithin.get? h

/-- An operation on two constants is one of them or the constant with the text of the operation. -/
theorem simplified_constants (a b : Ref) (x y : Bytes) (hdivisor : op = .div → ¬(Numeral.read y).isZero) :
    (simplified op a b (.constant x) (.constant y) = .place a ∧ textual.operate op x y = x) ∨
    (simplified op a b (.constant x) (.constant y) = .place b ∧ textual.operate op x y = y) ∨
    simplified op a b (.constant x) (.constant y) = .value (.constant (textual.operate op x y)) := by
  have htext : ∀ z text : Bytes, (Value.constant z).isText text ↔ z = text := by
    intro z text
    simp [Value.isText, Value.isConstant, Value.constant]
  have hcombined : ∀ op, combined op a b (.constant x) (.constant y) =
      .value (.constant (Numeral.write (op.compute (Numeral.read x) (Numeral.read y)))) := fun _ => rfl
  have hy : (Value.constant y).text = y := rfl
  cases op <;> simp only [simplified, textual, Value.isZero, Value.isOne, htext, hcombined, hy] <;> grind

/-- The work succeeds and adds nothing but constants, and its result is as `post` says. -/
def Gives {ε α : Type} (t : ValueTable) (work : Build ValueTable ε α) (post : α → ValueTable → Prop) : Prop :=
  ∃ a t', work t = (.ok a, t') ∧ t'.Plain ∧ t.Within t' ∧ post a t'

variable {ε ε' α β : Type} {P : α → ValueTable → Prop} {Q : β → ValueTable → Prop}

theorem gives_pure {a : α} (ht : t.Plain) (h : P a t) : t.Gives (pure a : Build ValueTable ε α) P :=
  ⟨a, t, rfl, ht, .refl t, h⟩

theorem Gives.bind {work : Build ValueTable ε α} {next : α → Build ValueTable ε β} (h : t.Gives work P)
    (hnext : ∀ a t', t'.Plain → t.Within t' → P a t' → t'.Gives (next a) Q) : t.Gives (work >>= next) Q := by
  obtain ⟨a, t₁, hrun, ht₁, hwithin, hP⟩ := h
  obtain ⟨b, t₂, hrun', ht₂, hwithin', hQ⟩ := hnext a t₁ ht₁ hwithin hP
  exact ⟨b, t₂, (Build.bind_ok next hrun).trans hrun', ht₂, hwithin.trans hwithin', hQ⟩

theorem Gives.adapt {work : Build ValueTable ε α} (h : t.Gives work P) (f : ε → ε') : t.Gives (ExceptT.adapt f work) P := by
  obtain ⟨a, t', hrun, hrest⟩ := h
  exact ⟨a, t', Build.adapt_ok f hrun, hrest⟩

theorem gives_constant (ht : t.Plain) (x : Bytes) : t.Gives (constant x) fun r t' => t'.ConstantAt r x := by
  unfold constant
  rcases intern_cases (.constant x) t with ⟨i, hi, hrun⟩ | ⟨-, hrefused, -⟩ | ⟨hfresh, hadm, hrun⟩
  · refine ⟨_, _, hrun, ht, .refl t, ?_⟩
    exact (get?_natCast t i).trans ((ht.wellFormed.indexed _ i).1 hi)
  · exact absurd (admits_constant t x) hrefused
  · refine ⟨_, _, hrun, ⟨ht.wellFormed.push hfresh hadm, fun v hv => ?_⟩, within_push t _, ?_⟩
    · rcases Array.mem_push.1 hv with hv | rfl
      · exact ht.no_operation v hv
      · exact nofun
    · show (t.push (.constant x)).get? t.size = _
      rw [get?_natCast, values_push, if_pos rfl]

/-- **An operation on constants** is a constant, unless it divides by zero. -/
theorem gives_operate (op : Operator) (ht : t.Plain) (ha : t.ConstantAt a x) (hb : t.ConstantAt b y)
    (hdivisor : op = .div → ¬(Numeral.read y).isZero) :
    t.Gives (operate op a b) fun r t' => t'.ConstantAt r (textual.operate op x y) := by
  have hreduce := reduce_eq ha hb op
  unfold Gives operate
  rcases simplified_constants a b x y hdivisor with ⟨heq, htext⟩ | ⟨heq, htext⟩ | heq
  · rw [hreduce, heq, htext]
    exact ⟨a, t, rfl, ht, .refl t, ha⟩
  · rw [hreduce, heq, htext]
    exact ⟨b, t, rfl, ht, .refl t, hb⟩
  · rw [hreduce, heq]
    exact gives_constant ht _

/-- The places of a pair hold the constants with the given texts. -/
def ConstantsAt (t : ValueTable) (c : Components) (w : Bytes × Bytes) : Prop :=
  t.ConstantAt c.re w.1 ∧ t.ConstantAt c.im w.2

theorem gives_constants (ht : t.Plain) (re im : Bytes) :
    t.Gives (ExceptT.adapt DecompositionError.table do
      let r ← constant re
      let i ← constant im
      return Components.mk r i : Build ValueTable DecompositionError Components)
      fun c t' => t'.ConstantsAt c (re, im) := by
  refine Gives.adapt ?_ _
  refine (gives_constant ht re).bind fun r t₁ ht₁ _ hr => ?_
  refine (gives_constant ht₁ im).bind fun i t₂ ht₂ h₂ hi => ?_
  exact gives_pure ht₂ ⟨hr.mono h₂, hi⟩

/-- Operations on pairs of constants, one real operation after the other. -/
theorem gives_operation {a b : Components} {p q : Bytes × Bytes} (ht : t.Plain) (ha : t.ConstantsAt a p)
    (hb : t.ConstantsAt b q) (hdivisor : op = .div → ¬(Numeral.read (textual.norm q)).isZero) :
    t.Gives (Components.operation operate op a b) fun c t' => t'.ConstantsAt c (textual.complex op p q) := by
  cases op with
  | add =>
    refine (gives_operate .add ht ha.1 hb.1 nofun).bind fun re t₁ ht₁ h₁ hre => ?_
    refine (gives_operate .add ht₁ (ha.2.mono h₁) (hb.2.mono h₁) nofun).bind fun im t₂ ht₂ h₂ him => ?_
    exact gives_pure ht₂ ⟨hre.mono h₂, him⟩
  | sub =>
    refine (gives_operate .sub ht ha.1 hb.1 nofun).bind fun re t₁ ht₁ h₁ hre => ?_
    refine (gives_operate .sub ht₁ (ha.2.mono h₁) (hb.2.mono h₁) nofun).bind fun im t₂ ht₂ h₂ him => ?_
    exact gives_pure ht₂ ⟨hre.mono h₂, him⟩
  | mul =>
    refine (gives_operate .mul ht ha.1 hb.1 nofun).bind fun rr t₁ ht₁ h₁ hrr => ?_
    refine (gives_operate .mul ht₁ (ha.2.mono h₁) (hb.2.mono h₁) nofun).bind fun ii t₂ ht₂ h₂ hii => ?_
    refine (gives_operate .sub ht₂ (hrr.mono h₂) hii nofun).bind fun re t₃ ht₃ h₃ hre => ?_
    have h₀ : t.Within t₃ := (h₁.trans h₂).trans h₃
    refine (gives_operate .mul ht₃ (ha.1.mono h₀) (hb.2.mono h₀) nofun).bind fun ri t₄ ht₄ h₄ hri => ?_
    refine (gives_operate .mul ht₄ ((ha.2.mono h₀).mono h₄) ((hb.1.mono h₀).mono h₄) nofun).bind fun ir t₅ ht₅ h₅ hir => ?_
    refine (gives_operate .add ht₅ (hri.mono h₅) hir nofun).bind fun im t₆ ht₆ h₆ him => ?_
    exact gives_pure ht₆ ⟨((hre.mono h₄).mono h₅).mono h₆, him⟩
  | div =>
    refine (gives_operate .mul ht hb.1 hb.1 nofun).bind fun squareRe t₁ ht₁ h₁ hsquareRe => ?_
    refine (gives_operate .mul ht₁ (hb.2.mono h₁) (hb.2.mono h₁) nofun).bind fun squareIm t₂ ht₂ h₂ hsquareIm => ?_
    refine (gives_operate .add ht₂ (hsquareRe.mono h₂) hsquareIm nofun).bind fun norm t₃ ht₃ h₃ hnorm => ?_
    have h₀ : t.Within t₃ := (h₁.trans h₂).trans h₃
    refine (gives_operate .mul ht₃ (ha.1.mono h₀) (hb.1.mono h₀) nofun).bind fun rr t₄ ht₄ h₄ hrr => ?_
    have h₀ : t.Within t₄ := h₀.trans h₄
    refine (gives_operate .mul ht₄ (ha.2.mono h₀) (hb.2.mono h₀) nofun).bind fun ii t₅ ht₅ h₅ hii => ?_
    refine (gives_operate .add ht₅ (hrr.mono h₅) hii nofun).bind fun sum t₆ ht₆ h₆ hsum => ?_
    have hnorm₆ := ((hnorm.mono h₄).mono h₅).mono h₆
    refine (gives_operate .div ht₆ hsum hnorm₆ hdivisor).bind fun re t₇ ht₇ h₇ hre => ?_
    have h₀ : t.Within t₇ := ((h₀.trans h₅).trans h₆).trans h₇
    refine (gives_operate .mul ht₇ (ha.2.mono h₀) (hb.1.mono h₀) nofun).bind fun ir t₈ ht₈ h₈ hir => ?_
    have h₀ : t.Within t₈ := h₀.trans h₈
    refine (gives_operate .mul ht₈ (ha.1.mono h₀) (hb.2.mono h₀) nofun).bind fun ri t₉ ht₉ h₉ hri => ?_
    refine (gives_operate .sub ht₉ (hir.mono h₉) hri nofun).bind fun difference t₁₀ ht₁₀ h₁₀ hdifference => ?_
    have hnorm₁₀ := (((hnorm₆.mono h₇).mono h₈).mono h₉).mono h₁₀
    refine (gives_operate .div ht₁₀ hdifference hnorm₁₀ hdivisor).bind fun im t₁₁ ht₁₁ h₁₁ him => ?_
    exact gives_pure ht₁₁ ⟨(((hre.mono h₈).mono h₉).mono h₁₀).mono h₁₁, him⟩

theorem plain_new : new.Plain where
  wellFormed := wellFormed_new
  no_operation := by decide

/-- Without temporaries, a constant is referred to by its text. -/
theorem RefersTo.eq_const {e : Expr} (he : t.RefersTo [] r e) (hr : t.ConstantAt r x) : e = .const x := by
  have hvalue : ∀ {i : Nat} {v : Value}, t.values[i]? = some v → t.ConstantAt i x → v = .constant x := by
    intro i v hv hi
    exact Option.some.inj (hv.symm.trans ((t.get?_natCast i).symm.trans hi))
  cases he with
  | temporary h => cases h
  | argument hv hk =>
    cases hvalue hv hr
    cases hk
  | constant hv hk =>
    cases hvalue hv hr
    rfl
  | operation _ hv hk _ _ =>
    cases hvalue hv hr
    cases hk

/-- A program for two constants does nothing else. -/
theorem Plain.toProgram_eq (ht : t.Plain) {c : Components} {w : Bytes × Bytes} (hc : t.ConstantsAt c w) {p : Program}
    (hp : t.toProgram c.re c.im = .ok p) : p = ⟨[], .const w.1, .const w.2, 0⟩ := by
  have hshared : t.sharedOperations c.re c.im = [] := by
    rw [List.eq_nil_iff_forall_not_mem]
    intro i hi
    obtain ⟨-, hbinary, -⟩ := mem_sharedOperations.1 hi
    obtain ⟨v, hv, hk⟩ := isBinary_iff.1 hbinary
    exact ht.no_operation v (Array.mem_of_getElem? hv) hk
  obtain ⟨htemps, hlength, -, hre, him⟩ := emits_of_toProgram ht.wellFormed hp
  rw [hshared] at hlength hre him
  have hassigns : p.assigns = [] := List.eq_nil_of_length_eq_zero hlength
  rw [hassigns] at htemps
  obtain ⟨assigns, re, im, temps⟩ := p
  obtain rfl : assigns = [] := hassigns
  obtain rfl : temps = 0 := htemps
  obtain rfl : re = .const w.1 := hre.eq_const hc.1
  obtain rfl : im = .const w.2 := him.eq_const hc.2
  rfl

end ValueTable

/-! ## Formulas without the argument -/

/-- **Folding a tree of constants** adds the constants that its texts say. -/
theorem ParseTree.fold_texts (x : ParseTree) (hnames : ∀ id ∈ x.formula.names, id = [Byte.letterI])
    (hdenominators : ∀ d ∈ x.formula.denominators, ¬(Numeral.read d).isZero) :
    ∃ w, x.formula.texts = some w ∧
      ∀ t : ValueTable, t.Plain → t.Gives (x.fold Components.builder) fun c t' => t'.ConstantsAt c w := by
  induction x with
  | number text => exact ⟨(text, [Byte.zero]), rfl, fun t ht => ValueTable.gives_constants ht text [Byte.zero]⟩
  | name id =>
    obtain rfl := hnames id (List.mem_singleton.2 rfl)
    exact ⟨([Byte.zero], [Byte.one]), rfl, fun t ht => ValueTable.gives_constants ht [Byte.zero] [Byte.one]⟩
  | operation op l r ihl ihr =>
    simp only [formula, Formula.denominators, List.mem_append] at hdenominators
    obtain ⟨p, hp, hl⟩ := ihl (fun id hid => hnames id (List.mem_append_left _ hid))
      fun d hd => hdenominators d (.inl (.inl hd))
    obtain ⟨q, hq, hr⟩ := ihr (fun id hid => hnames id (List.mem_append_right _ hid))
      fun d hd => hdenominators d (.inl (.inr hd))
    have hdivisor : op = .div → ¬(Numeral.read (textual.norm q)).isZero := by
      rintro rfl
      exact hdenominators _ (.inr (by simp [hq]))
    refine ⟨textual.complex op p q, ?_, fun t ht => ?_⟩
    · unfold Formula.texts at hp hq ⊢
      simp [formula, Formula.value, hp, hq]
    · refine (hl t ht).bind fun a t₁ ht₁ h₁ ha => ?_
      refine (hr t₁ ht₁).bind fun b t₂ ht₂ h₂ hb => ?_
      exact (ValueTable.gives_operation ht₂ ⟨ha.1.mono h₂, ha.2.mono h₂⟩ hb hdivisor).adapt _

/-- A formula without the argument is decomposed into constants. -/
theorem Formula.decompose_texts {x : Formula} (h : x.firstOffence? = none) (hargument : [Byte.letterZ] ∉ x.names)
    (hdenominators : ∀ d ∈ x.denominators, ¬(Numeral.read d).isZero) :
    ∃ w c t, x.texts = some w ∧ x.decompose .new = (.ok c, t) ∧ t.Plain ∧ t.ConstantsAt c w := by
  obtain ⟨tree, rfl, hundefined⟩ := exists_parseTree h
  have hnames : ∀ id ∈ tree.formula.names, id = [Byte.letterI] := by
    intro id hid
    rcases undefined?_eq_none_iff.1 hundefined id hid with rfl | hi
    · exact absurd hid hargument
    · exact hi
  obtain ⟨w, hw, hfold⟩ := tree.fold_texts hnames hdenominators
  obtain ⟨c, t, hrun, ht, -, hc⟩ := hfold .new ValueTable.plain_new
  rw [ParseTree.fold_componentsBuilder] at hrun
  exact ⟨w, c, t, hw, hrun, ht, hc⟩

/-- The program of such a formula consists of two constants. -/
theorem Formula.program_of_texts {x : Formula} {p : Program} (h : x.compile = .ok p)
    (hargument : [Byte.letterZ] ∉ x.names) (hdenominators : ∀ d ∈ x.denominators, ¬(Numeral.read d).isZero) :
    ∃ w c t, x.texts = some w ∧ x.decompose .new = (.ok c, t) ∧ t.Plain ∧ p = ⟨[], .const w.1, .const w.2, 0⟩ := by
  obtain ⟨w, c, t, hw, hrun, ht, hc⟩ := decompose_texts (usable_of_compile h).1 hargument hdenominators
  obtain ⟨c', t', hrun', hprogram⟩ := compile_eq_ok h
  cases hrun.symm.trans hrun'
  exact ⟨w, c, t, hw, hrun, ht, ht.toProgram_eq hc hprogram⟩

theorem Formula.compile_number (text : Bytes) :
    (Formula.number text).compile = .ok ⟨[], .const text, .const [Byte.zero], 0⟩ := by
  obtain ⟨p, hp, -⟩ : ∃ p, (Formula.number text).compile = .ok p ∧ p.Usable := (Formula.number text).compile_eq
  obtain ⟨w, c, t, hw, -, -, rfl⟩ := program_of_texts hp List.not_mem_nil (List.forall_mem_nil _)
  obtain rfl : (text, [Byte.zero]) = w := Option.some.inj hw
  exact hp

/-- **Simplified tables are in normal form.** In a table whose operations all came through the simplifier, every operation
is a fixed point: asking for it again, then or at any later time, gives its place and adds nothing. Both of its operands
are constants only if it divides by a constant that reads as zero. So a formula without the argument, none of whose
denominators reads as zero, adds no operation, and its program consists of two constants, with the texts of the formula. -/
theorem simplified_tables_normal :
    (∀ t : ValueTable, ValueTable.new.Leads ValueTable.Request.IsSimplified t →
      ∀ (k : Nat) (v : Value), t.values[k]? = some v → v.kind = .binary →
        ∃ (op : Operator) (x y : Value), v = .binary op v.left v.right ∧
          t.get? v.left = some x ∧ t.get? v.right = some y ∧
          (x.isConstant → y.isConstant → op = .div ∧ (Numeral.read y.text).isZero) ∧
          ∀ t', t.Leads (fun _ => True) t' → ValueTable.operate op v.left v.right t' = (.ok (k : Ref), t')) ∧
    ∀ (x : Formula) (p : Program), x.compile = .ok p → [Byte.letterZ] ∉ x.names →
      (∀ d ∈ x.denominators, ¬(Numeral.read d).isZero) →
        ∃ c t re im, x.decompose .new = (.ok c, t) ∧ (∀ v ∈ t.values, v.kind ≠ .binary) ∧
          x.texts = some (re, im) ∧ p = ⟨[], .const re, .const im, 0⟩ := by
  refine ⟨fun t ht k v hv hk => ?_, fun x p hp hargument hdenominators => ?_⟩
  · have hreachable := ht.reachable .new
    obtain ⟨l, r, hl, hr, hlt, hrt⟩ := hreachable.wellFormed.operands k v hv hk
    have hsize := ValueTable.lt_size_of_getElem? hv
    obtain ⟨x, hx⟩ := ValueTable.exists_get?_of_holds ((t.holds_natCast l).2 (by omega))
    obtain ⟨y, hy⟩ := ValueTable.exists_get?_of_holds ((t.holds_natCast r).2 (by omega))
    rw [← hl] at hx
    rw [← hr] at hy
    obtain ⟨op, hreduce⟩ := ht.normal ValueTable.normal_new k v hv hk
    have hform : v = .binary op v.left v.right := by
      rcases ValueTable.reduce_value hreduce with hform | ⟨_, hconstant⟩
      · exact hform
      · rw [hconstant] at hk
        cases hk
    refine ⟨op, x, y, hform, hx, hy, fun hxc hyc => ?_, fun t' ht' => ?_⟩
    · rw [ValueTable.reduce_eq hx hy op] at hreduce
      exact ValueTable.simplified_constants_inv hxc hyc ((Except.ok.inj hreduce).trans (congrArg _ hform))
    · exact ValueTable.operate_again hreduce hv ht'.within (ht'.reachable hreachable).wellFormed
  · obtain ⟨w, c, t, hw, hrun, ht, hprogram⟩ := Formula.program_of_texts hp hargument hdenominators
    exact ⟨c, t, w.1, w.2, hrun, ht.no_operation, hw, hprogram⟩

/-- One divided by zero, which is not computed. -/
def zeroQuotient : ValueTable :=
  ((ValueTable.new.after (.constant [Byte.one])).after (.constant [Byte.zero])).after (.operate .div 2 3)

theorem values_zeroQuotient : zeroQuotient.values = #[.argument (bytes "re"), .argument (bytes "im"),
    .constant [Byte.one], .constant [Byte.zero], .binary .div 2 3] := by cbv

/-- The formula `(1+i)/(2-i)`. -/
def closedQuotient : Formula :=
  .binary Operator.div.symbol (.binary Operator.add.symbol (.number (bytes "1")) (.name (bytes "i")))
    (.binary Operator.sub.symbol (.number (bytes "2")) (.name (bytes "i")))

theorem texts_closedQuotient : closedQuotient.texts = some (bytes "0.2", bytes "0.6") := by decide +kernel

theorem simplified_tables_normal_quotients :
    ValueTable.operate .div 2 3 (zeroQuotient.after (.number (bytes "7"))) =
      (.ok 4, zeroQuotient.after (.number (bytes "7"))) ∧
    closedQuotient.denominators = [bytes "5"] ∧
    closedQuotient.compile = .ok ⟨[], .const (bytes "0.2"), .const (bytes "0.6"), 0⟩ := by
  have hdenominators : closedQuotient.denominators = [bytes "5"] := by decide +kernel
  refine ⟨?_, hdenominators, ?_⟩
  · have hleads : ValueTable.new.Leads ValueTable.Request.IsSimplified zeroQuotient :=
      ((ValueTable.Leads.after .refl _ trivial).after _ trivial).after _ trivial
    have hentry : zeroQuotient.values[4]? = some (.binary .div 2 3) := by
      rw [values_zeroQuotient]
      rfl
    obtain ⟨op, -, -, hform, -, -, -, hagain⟩ := simplified_tables_normal.1 zeroQuotient hleads 4 _ hentry rfl
    have hsymbol : Operator.div.symbol = op.symbol := congrArg Value.symbol hform
    have hop := Operator.ofSymbol?_symbol op
    rw [← hsymbol, Operator.ofSymbol?_symbol] at hop
    cases hop
    exact hagain _ (.after .refl _ trivial)
  · have hoffence := closedQuotient.compile_eq
    have hnone : closedQuotient.firstOffence? = none := by decide
    rw [hnone] at hoffence
    obtain ⟨p, hp, -⟩ := hoffence
    have hnonzero : ¬(Numeral.read (bytes "5")).isZero := by decide +kernel
    obtain ⟨c, t, re, im, -, -, htexts, rfl⟩ := simplified_tables_normal.2 closedQuotient p hp (by decide)
      fun d hd => by
        rw [hdenominators] at hd
        exact List.mem_singleton.1 hd ▸ hnonzero
    rw [texts_closedQuotient] at htexts
    cases htexts
    exact hp

end Texts

end ComplexFormula
