import ComplexFormula.Proofs.Compilation

/-!
# Compiling while reading and compiling the tree

A text can be compiled while it is read, or parsed to a formula that is compiled then. Both ways do the same work on the
table, in the same order, and stop at the same place: this is `drive_of_conclude` with `fold_componentsBuilder`.

What is left to say is when they stop. Decomposition itself never gets stuck (`fold_of_defined`), so the only errors are
undefined names. The first of them ends the work (`fold_of_undefined`), also in a text that turns out to be malformed
later on (`foldAll_components`).
-/

namespace ComplexFormula

/-! ## Undefined names -/

/-- The first name that stands for neither the argument nor the imaginary unit. -/
def undefined? (names : List Bytes) : Option Bytes :=
  names.find? fun id => id ≠ [Byte.letterZ] ∧ id ≠ [Byte.letterI]

theorem undefined?_eq_none_iff {names : List Bytes} :
    undefined? names = none ↔ ∀ id ∈ names, id = [Byte.letterZ] ∨ id = [Byte.letterI] := by
  rw [undefined?, List.find?_eq_none]
  refine forall₂_congr fun id _ => ?_
  rw [decide_eq_true_iff]
  tauto

/-- The first undefined name of two lists is that of the first list, if there is one. -/
theorem undefined?_append (names names' : List Bytes) :
    undefined? (names ++ names') = (undefined? names).or (undefined? names') := List.find?_append

namespace Callback

/-- The name that a call reports. -/
def name? : Callback → Option Bytes
  | .name id => some id
  | .number _ | .operator _ => none

end Callback

/-- The names that are reported to the builder while a text is read, in their order. -/
def namesRead (text : Bytes) : List Bytes := (callsOf text).filterMap Callback.name?

namespace ParseTree

theorem filterMap_name?_postorder (x : ParseTree) : x.postorder.filterMap Callback.name? = x.formula.names := by
  induction x with
  | number text => rfl
  | name id => rfl
  | operation op l r ihl ihr =>
    rw [postorder, List.filterMap_append, List.filterMap_append, ihl, ihr, formula, Formula.names]
    exact List.append_nil _

end ParseTree

theorem namesRead_eq (text : Bytes) :
    namesRead text = (Scan.expression text).trees.flatMap fun x => x.formula.names := by
  rw [namesRead, callsOf_eq, List.filterMap_flatMap]
  simp only [ParseTree.filterMap_name?_postorder]

/-! ## Decomposition -/

/-- Numbers of which there is only one. Every law holds in them, and every fold is exact. -/
def onePoint : Arithmetic Unit where
  zero := ()
  operate _ _ _ := ()
  constant _ := ()

theorem lawful_onePoint : onePoint.Lawful () where
  constant_zero := rfl
  constant_one := rfl
  zero_add _ := rfl
  add_zero _ := rfl
  sub_zero _ := rfl
  zero_mul _ := rfl
  mul_zero _ := rfl
  one_mul _ := rfl
  mul_one _ := rfl
  div_one _ := rfl

namespace ParseTree

variable {t : ValueTable}

/-- **Decomposition never gets stuck** on a tree without undefined names, and its components have a program. -/
theorem fold_of_defined (x : ParseTree) (ht : t.Sound) (hnames : undefined? x.formula.names = none) :
    ∃ c t', x.fold Components.builder t = (.ok c, t') ∧ t'.Sound ∧ ∃ p, c.toProgram t' = .ok p := by
  -- the values do not matter here, so one number is enough to compute with
  obtain ⟨F, -, hmeets⟩ := Watched.meets_fold lawful_onePoint x (undefined?_eq_none_iff.1 hnames)
  obtain ⟨c, t', folds, hrun, ht', -, hc⟩ := hmeets t ht [] fun _ _ => rfl
  obtain ⟨p, hp, -⟩ := call_components ht' hc
  have hplain := Watched.erases_fold x t []
  rw [hrun] at hplain
  exact ⟨c, t', hplain.symm, ht', p, hp⟩

/-- **The first undefined name** of a tree ends its decomposition. -/
theorem fold_of_undefined (x : ParseTree) (ht : t.Sound) {id : Bytes} (hid : undefined? x.formula.names = some id) :
    ∃ t', x.fold Components.builder t = (.error (.undefined id), t') := by
  induction x generalizing t with
  | number text => cases hid
  | name id' =>
    obtain ⟨hmem, hundefined⟩ := And.intro (List.mem_of_find?_eq_some hid) (List.find?_some hid)
    cases List.mem_singleton.1 hmem
    rw [decide_eq_true_iff] at hundefined
    refine ⟨t, ?_⟩
    show Components.name id t = _
    rw [Components.name, if_neg hundefined.1, if_neg hundefined.2]
    rfl
  | operation op l r ihl ihr =>
    rw [formula, Formula.names, undefined?_append] at hid
    cases hl : undefined? l.formula.names with
    | some id' =>
      rw [hl] at hid
      cases hid
      obtain ⟨t', hrun⟩ := ihl ht hl
      exact ⟨t', fold_operation_left hrun⟩
    | none =>
      rw [hl] at hid
      obtain ⟨c, t', hrun, ht', -⟩ := l.fold_of_defined ht hl
      obtain ⟨t'', hrun'⟩ := ihr ht' hid
      exact ⟨t'', fold_operation_right hrun hrun'⟩

/-- The same for trees one after the other. -/
theorem foldAll_components (xs : List ParseTree) (ht : t.Sound) :
    match undefined? (xs.flatMap fun x => x.formula.names) with
    | none => ∃ values t', foldAll Components.builder xs t = (.ok values, t')
    | some id => ∃ t', foldAll Components.builder xs t = (.error (.undefined id), t') := by
  induction xs generalizing t with
  | nil => exact ⟨[], t, rfl⟩
  | cons x xs ih =>
    rw [List.flatMap_cons, undefined?_append]
    cases hx : undefined? x.formula.names with
    | some id =>
      obtain ⟨t', hrun⟩ := x.fold_of_undefined ht hx
      exact ⟨t', foldAll_cons_error xs hrun⟩
    | none =>
      obtain ⟨c, t', hrun, ht', -⟩ := x.fold_of_defined ht hx
      have hxs := ih ht'
      rw [Option.none_or]
      split at hxs
      · obtain ⟨values, t'', hrun'⟩ := hxs
        exact ⟨c :: values, t'', foldAll_cons_ok_ok hrun hrun'⟩
      · obtain ⟨t'', hrun'⟩ := hxs
        exact ⟨t'', foldAll_cons_ok_error hrun hrun'⟩

end ParseTree

/-! ## Both ways -/

theorem Failure.lift_lift {ε : Type} (why : Failure Empty) : (why.lift : Failure Empty).lift = (why.lift : Failure ε) := by
  obtain ⟨labels, cause⟩ := why
  cases cause with
  | refused error => exact error.elim
  | _ => rfl

theorem Formula.compile_of_decompose {x : Formula} {c : Components} {t : ValueTable}
    (h : x.decompose .new = (.ok c, t)) : x.compile = c.toProgram t := by
  have hrun : x.decompose.run.run .new = (.ok c, t) := h
  rw [Formula.compile, hrun]

theorem Formula.compile_of_decompose_error {x : Formula} {e : DecompositionError} {t : ValueTable}
    (h : x.decompose .new = (.error e, t)) : x.compile = .error (.decomposition e) := by
  have hrun : x.decompose.run.run .new = (.error e, t) := h
  rw [Formula.compile, hrun]

/-- A well-formed text compiles as its formula does: to the same program, or to the error of the first undefined name. -/
theorem compile_of_conclude {text : Bytes} {x : ParseTree} (h : (Scan.expression text).conclude text = .ok x) :
    match undefined? x.formula.names with
    | none => ∃ c t p, x.formula.decompose .new = (.ok c, t) ∧ compile text = .ok p ∧ x.formula.compile = .ok p
    | some id => ∃ t, x.formula.decompose .new = (.error (.undefined id), t) ∧
        compile text = .error (.rejected (.refused (.undefined id))) ∧
        x.formula.compile = .error (.decomposition (.undefined id)) := by
  have hdrive := drive_of_conclude h Components.builder ValueTable.new
  rw [compile, hdrive, ← ParseTree.fold_componentsBuilder]
  split
  · rename_i hnames
    obtain ⟨c, t, hrun, -, p, hp⟩ := x.fold_of_defined ValueTable.sound_new hnames
    have htree : x.formula.decompose .new = (.ok c, t) := by rw [← ParseTree.fold_componentsBuilder, hrun]
    rw [hrun]
    exact ⟨c, t, p, rfl, hp, by rw [Formula.compile_of_decompose htree, hp]⟩
  · rename_i id hid
    obtain ⟨t, hrun⟩ := x.fold_of_undefined ValueTable.sound_new hid
    have htree : x.formula.decompose .new = (.error (.undefined id), t) := by
      rw [← ParseTree.fold_componentsBuilder, hrun]
    rw [hrun]
    exact ⟨t, rfl, rfl, Formula.compile_of_decompose_error htree⟩

/-- A malformed text fails to compile where it is malformed, unless an undefined name was read before. -/
theorem compile_of_malformed {text : Bytes} {position : Nat} {why : Failure Empty}
    (h : (Scan.expression text).conclude text = .error (position, why)) :
    compile text = .error (.rejected (match undefined? (namesRead text) with
      | none => .malformed position why.lift
      | some id => .refused (.undefined id))) := by
  have hfold := ParseTree.foldAll_components (Scan.expression text).trees ValueTable.sound_new
  rw [namesRead_eq]
  split at hfold
  · obtain ⟨values, t, hrun⟩ := hfold
    have hdrive := drive_of_foldAll_ok hrun
    rw [h] at hdrive
    rw [compile, hdrive]
  · obtain ⟨t, hrun⟩ := hfold
    rw [compile, drive_of_foldAll_error hrun]

/-- **Compiling while reading agrees with compiling the formula.** On a well-formed text both do the same to a new table
and end with the same pair or the same undefined name, and so with the same program or the same error. A malformed text
fails with the failure of parsing, or with the first undefined name among those read until then. So the texts with a
program are those of formulas without undefined names. -/
theorem compile_agrees_with_formula (text : Bytes) :
    (match Formula.parse text with
      | .ok x =>
        Components.builder.drive text .new = ((x.decompose .new).1.mapError .refused, (x.decompose .new).2) ∧
        (match undefined? x.names with
          | none => ∃ c t p, x.decompose .new = (.ok c, t) ∧ compile text = .ok p ∧ x.compile = .ok p
          | some id => ∃ t, x.decompose .new = (.error (.undefined id), t) ∧
              compile text = .error (.rejected (.refused (.undefined id))) ∧
              x.compile = .error (.decomposition (.undefined id))) ∧
        (compile text).mapError CompileError.message? = x.compile.mapError CompileError.message?
      | .error (.malformed position why) =>
        compile text = .error (.rejected (match undefined? (namesRead text) with
          | none => .malformed position why.lift
          | some id => .refused (.undefined id))) ∧
        (Rejection.malformed position why.lift).message? DecompositionError.message =
          (Rejection.malformed position why).message? Empty.elim
      | .error _ => False) ∧
    ((∃ p, compile text = .ok p) ↔
      ∃ x, Formula.parse text = .ok x ∧ ∀ id ∈ x.names, id = [Byte.letterZ] ∨ id = [Byte.letterI]) := by
  rw [Formula.parse_eq]
  cases hverdict : (Scan.expression text).conclude text with
  | ok tree =>
    have hcompile := compile_of_conclude hverdict
    refine ⟨⟨?_, hcompile, ?_⟩, ?_⟩
    · rw [← ParseTree.fold_componentsBuilder]
      exact drive_of_conclude hverdict Components.builder ValueTable.new
    · split at hcompile
      · obtain ⟨_, _, p, -, htext, htree⟩ := hcompile
        rw [htext, htree]
      · obtain ⟨_, -, htext, htree⟩ := hcompile
        rw [htext, htree]
        rfl
    · constructor
      · rintro ⟨p, hp⟩
        refine ⟨tree.formula, rfl, undefined?_eq_none_iff.1 ?_⟩
        split at hcompile
        · assumption
        · obtain ⟨_, -, htext, -⟩ := hcompile
          rw [htext] at hp
          cases hp
      · rintro ⟨x, hx, hnames⟩
        cases hx
        rw [undefined?_eq_none_iff.2 hnames] at hcompile
        obtain ⟨_, _, p, -, htext, -⟩ := hcompile
        exact ⟨p, htext⟩
  | error verdict =>
    obtain ⟨position, why⟩ := verdict
    have hcompile := compile_of_malformed hverdict
    refine ⟨⟨?_, ?_⟩, ?_⟩
    · rw [Failure.lift_lift]
      exact hcompile
    · simp only [Rejection.message?, malformedMessage, Failure.message_lift]
    · constructor
      · rintro ⟨p, hp⟩
        rw [hcompile] at hp
        cases hp
      · rintro ⟨x, hx, -⟩
        cases hx

end ComplexFormula
