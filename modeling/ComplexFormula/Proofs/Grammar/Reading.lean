import ComplexFormula.Proofs.Grammar.Answers

/-!
# Reading a text is folding its trees

What a text comes to does not depend on the builder. There is a list of trees that reading it completes, in the order
of the text, and a verdict: the only tree of the list, or a position and a failure. Driving a builder folds the trees
one after the other. The first refusal of the builder ends the work and is the result, even if the text is malformed
later on; without one the result is the verdict's.
-/

namespace ComplexFormula

variable {σ ε α : Type} {builder : Builder σ ε α} {text : Bytes} {state state' : σ}

theorem Builder.drive_eq {outcome : Outcome ε α} {s : Session σ ε}
    (h : Parser.expression builder text ⟨state, none⟩ = (outcome, s)) :
    builder.drive text state =
      match conclude text outcome s.refusal with
      | .ok item =>
        match Parser.operand? builder item with
        | some a => (.ok a, s.state)
        | none => (.error (.fault .operand), s.state)
      | .error why => (.error why, s.state) := by
  rw [drive, Parser.readAll, h]
  dsimp only
  cases conclude text outcome s.refusal with
  | ok item => rfl
  | error why => rfl

/-- A builder that refuses a tree of the text refuses the text. -/
theorem drive_of_foldAll_error {e : ε}
    (h : ParseTree.foldAll builder (Scan.expression text).trees state = (.error e, state')) :
    builder.drive text state = (.error (.refused e), state') := by
  have hanswers := Parser.expression_answers builder text state
  generalize Scan.expression text = scan at h hanswers
  generalize hanswer : Parser.expression builder text ⟨state, none⟩ = answer at hanswers
  cases hanswers with
  | found hfold =>
    rw [Scan.trees, ParseTree.foldAll_cons_ok_ok hfold rfl] at h
    cases h
  | stopped hfold =>
    rw [Scan.trees, hfold] at h
    cases h
  | refused hfold =>
    rw [hfold] at h
    cases h
    exact builder.drive_eq hanswer

/-- A builder that refuses no tree of the text makes of the text what becomes of it. -/
theorem drive_of_foldAll_ok {values : List α}
    (h : ParseTree.foldAll builder (Scan.expression text).trees state = (.ok values, state')) :
    match (Scan.expression text).conclude text with
    | .ok x => ∃ a, values = [a] ∧ x.fold builder state = (.ok a, state') ∧ builder.drive text state = (.ok a, state')
    | .error (position, why) => builder.drive text state = (.error (.malformed position why.lift), state') := by
  have hanswers := Parser.expression_answers builder text state
  generalize Scan.expression text = scan at h hanswers
  generalize hanswer : Parser.expression builder text ⟨state, none⟩ = answer at hanswers
  cases hanswers with
  | @found x used a _ hfold =>
    rw [Scan.trees, ParseTree.foldAll_cons_ok_ok hfold rfl] at h
    cases h
    have hdrive := builder.drive_eq hanswer
    dsimp only [conclude] at hdrive
    dsimp only [Scan.conclude]
    split
    · rename_i hscan
      split at hscan
      · rename_i hend
        cases hscan
        rw [hend] at hdrive
        exact ⟨a, rfl, hfold, hdrive⟩
      · cases hscan
    · rename_i hscan
      split at hscan
      · cases hscan
      · rename_i hend
        cases hscan
        rw [hend] at hdrive
        exact hdrive
  | stopped hfold =>
    rw [Scan.trees, hfold] at h
    cases h
    exact builder.drive_eq hanswer
  | refused hfold =>
    rw [hfold] at h
    cases h

/-- A builder makes of a well-formed text what it makes of the tree. -/
theorem drive_of_conclude {x : ParseTree} (h : (Scan.expression text).conclude text = .ok x) (builder : Builder σ ε α)
    (state : σ) :
    builder.drive text state = ((x.fold builder state).1.mapError .refused, (x.fold builder state).2) := by
  obtain ⟨used, hscan, -⟩ := Scan.conclude_eq_ok h
  have htrees : (Scan.expression text).trees = [x] := by rw [hscan, Scan.trees]
  rcases hfold : x.fold builder state with ⟨e | a, state'⟩
  · exact drive_of_foldAll_error (by rw [htrees]; exact ParseTree.foldAll_cons_error [] hfold)
  · have hdrive := drive_of_foldAll_ok (by rw [htrees]; exact ParseTree.foldAll_cons_ok_ok hfold rfl)
    rw [h] at hdrive
    obtain ⟨a', ha', -, hdrive⟩ := hdrive
    cases ha'
    exact hdrive

/-- The builder of formulas refuses nothing, so a text is parsed to what becomes of it. -/
theorem Formula.parse_eq (text : Bytes) :
    Formula.parse text =
      match (Scan.expression text).conclude text with
      | .ok x => .ok x.formula
      | .error (position, why) => .error (.malformed position why.lift) := by
  have hfold : ∀ xs, ParseTree.foldAll Formula.builder xs () = (.ok (xs.map ParseTree.formula), ()) := by
    intro xs
    induction xs with
    | nil => rfl
    | cons x xs ih => exact ParseTree.foldAll_cons_ok_ok (by rw [ParseTree.fold_formulaBuilder]; rfl) ih
  have hdrive := drive_of_foldAll_ok (hfold (Scan.expression text).trees)
  unfold Formula.parse
  split at hdrive
  · rename_i x hx
    obtain ⟨a, -, ha, hdrive⟩ := hdrive
    rw [ParseTree.fold_formulaBuilder] at ha
    cases ha
    rw [hdrive]
  · rw [hdrive]

/-- The calls for some trees fail as folding the trees does, and leave the values of the trees. -/
theorem perform_eq_error {xs : List ParseTree} {e : ε}
    (h : builder.perform (xs.flatMap ParseTree.postorder) [] state = (.error e, state')) :
    ParseTree.foldAll builder xs state = (.error e, state') := by
  rw [ParseTree.perform_flatMap_postorder, map_eq_pure_bind] at h
  rcases hfold : ParseTree.foldAll builder xs state with ⟨e' | values, s⟩
  · rw [Build.bind_error _ hfold] at h
    cases h
    rfl
  · rw [Build.bind_ok _ hfold] at h
    cases h

theorem perform_eq_ok {xs : List ParseTree} {waiting : List α}
    (h : builder.perform (xs.flatMap ParseTree.postorder) [] state = (.ok waiting, state')) :
    ParseTree.foldAll builder xs state = (.ok waiting.reverse, state') := by
  rw [ParseTree.perform_flatMap_postorder, map_eq_pure_bind] at h
  rcases hfold : ParseTree.foldAll builder xs state with ⟨e' | values, s⟩
  · rw [Build.bind_error _ hfold] at h
    cases h
  · rw [Build.bind_ok _ hfold] at h
    cases h
    simp

/-- **Reading drives every builder alike.** The calls are those of `forest` in post-order; the first one to fail is the
last one made, and its error is the result. If none fails, the result is the fold of the only tree of `forest`, or a
failure whose position and text depend on nothing but `text`. -/
theorem drive_builder_independent (text : Bytes) :
    ∃ (forest : List ParseTree) (verdict : Except (Nat × Failure Empty) ParseTree),
      (∀ x, verdict = .ok x → forest = [x]) ∧
      ∀ {σ ε α : Type} (builder : Builder σ ε α) (state : σ),
        (∀ e state', builder.perform (forest.flatMap ParseTree.postorder) [] state = (.error e, state') →
          builder.drive text state = (.error (.refused e), state')) ∧
        (∀ waiting state', builder.perform (forest.flatMap ParseTree.postorder) [] state = (.ok waiting, state') →
          match verdict with
          | .ok x => ∃ a, waiting = [a] ∧ x.fold builder state = (.ok a, state') ∧
              builder.drive text state = (.ok a, state')
          | .error (position, why) => builder.drive text state = (.error (.malformed position why.lift), state') ∧
              ∀ describe : ε → Bytes, (Rejection.malformed position why.lift).message? describe =
                some (malformedMessage Empty.elim position why)) := by
  refine ⟨(Scan.expression text).trees, (Scan.expression text).conclude text, ?_, ?_⟩
  · intro x hx
    obtain ⟨used, hscan, -⟩ := Scan.conclude_eq_ok hx
    rw [hscan, Scan.trees]
  · intro σ ε α builder state
    refine ⟨fun e state' h => drive_of_foldAll_error (perform_eq_error h), fun waiting state' h => ?_⟩
    have hdrive := drive_of_foldAll_ok (perform_eq_ok h)
    split at hdrive
    · obtain ⟨a, hwaiting, hfold, hdrive⟩ := hdrive
      exact ⟨a, by simpa using hwaiting, hfold, hdrive⟩
    · refine ⟨hdrive, fun describe => ?_⟩
      simp only [Rejection.message?, malformedMessage, Failure.message_lift]

/-! ## The calls of a text -/

/-- The builder that writes down its calls. -/
def Callback.recorder : Builder (List Callback) Empty Unit where
  number text := modify (· ++ [.number text])
  name id := modify (· ++ [.name id])
  binary op _ _ := modify (· ++ [.operator op])
  kind _ := []

/-- The calls that reading a text makes of a builder that refuses nothing. -/
def callsOf (text : Bytes) : List Callback := (Callback.recorder.drive text []).2

theorem ParseTree.fold_recorder (x : ParseTree) (calls : List Callback) :
    x.fold Callback.recorder calls = (.ok (), calls ++ x.postorder) := by
  induction x generalizing calls with
  | number text => rfl
  | name id => rfl
  | operation op l r ihl ihr =>
    rw [fold_operation_ok (ihl calls) (ihr _), postorder, ← List.append_assoc, ← List.append_assoc]
    rfl

theorem ParseTree.foldAll_recorder (xs : List ParseTree) (calls : List Callback) :
    ∃ values, foldAll Callback.recorder xs calls = (.ok values, calls ++ xs.flatMap postorder) := by
  induction xs generalizing calls with
  | nil => exact ⟨[], by rw [List.flatMap_nil, List.append_nil]; rfl⟩
  | cons x xs ih =>
    obtain ⟨values, hxs⟩ := ih (calls ++ x.postorder)
    refine ⟨() :: values, ?_⟩
    rw [foldAll_cons_ok_ok (x.fold_recorder calls) hxs, List.flatMap_cons, List.append_assoc]

/-- The calls of a text are those of the trees that reading it completes. -/
theorem callsOf_eq (text : Bytes) : callsOf text = (Scan.expression text).trees.flatMap ParseTree.postorder := by
  obtain ⟨values, hfold⟩ := ParseTree.foldAll_recorder (Scan.expression text).trees []
  have hdrive := drive_of_foldAll_ok hfold
  unfold callsOf
  split at hdrive
  · obtain ⟨a, -, -, hdrive⟩ := hdrive
    rw [hdrive, List.nil_append]
  · rw [hdrive, List.nil_append]

end ComplexFormula
