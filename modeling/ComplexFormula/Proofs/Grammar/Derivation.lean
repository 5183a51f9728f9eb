import ComplexFormula.Proofs.Grammar.Lexemes
import ComplexFormula.Proofs.Grammar.Reading

/-!
# The grammar of formulas

`Derives` is the grammar, as an inductive relation between texts and formulas: expressions are terms joined by `+` and
`-`, terms are factors joined by `*` and `/`, and both group from the left. A text has a formula if it derives it up to
blanks at its end (`DerivesText`). Reading accepts exactly these texts and gives exactly these formulas.

* **Soundness** (`Scan.sum_sound`): what a scan finds at the front of a text is derived there.
* **Completeness** (`Derives.isScanned`): a derived text followed by something that cannot go on with it is what the
  scan finds. The chains make this more than a round trip: a scan of `a*b*c` does not stop after `a*b`, so for the
  levels that are chains the statement is that the scan comes by the end of the derived text (`Reaches`).
-/

namespace ComplexFormula

open Lexeme

inductive Level where
  | expression
  | term
  | factor

inductive Derives : Level → Bytes → Formula → Prop
  | term {w : Bytes} {x : Formula} (h : Derives .term w x) : Derives .expression w x
  | sum {w ws w' : Bytes} {x y : Formula} {op : UInt8} (h : Derives .expression w x) (hws : Blank ws)
      (hop : op = Byte.plus ∨ op = Byte.minus) (h' : Derives .term w' y) :
      Derives .expression (w ++ ws ++ op :: w') (.binary op x y)
  | factor {w : Bytes} {x : Formula} (h : Derives .factor w x) : Derives .term w x
  | product {w ws w' : Bytes} {x y : Formula} {op : UInt8} (h : Derives .term w x) (hws : Blank ws)
      (hop : op = Byte.star ∨ op = Byte.slash) (h' : Derives .factor w' y) :
      Derives .term (w ++ ws ++ op :: w') (.binary op x y)
  | parenthesized {ws w ws' : Bytes} {x : Formula} (hws : Blank ws) (h : Derives .expression w x) (hws' : Blank ws') :
      Derives .factor (ws ++ Byte.openParen :: (w ++ ws' ++ [Byte.closeParen])) x
  | number {ws w : Bytes} (hws : Blank ws) (hw : Number w) : Derives .factor (ws ++ w) (.number w)
  | name {ws w : Bytes} (hws : Blank ws) (hw : Name w) : Derives .factor (ws ++ w) (.name w)

/-- An expression with blanks at its end. -/
def DerivesText (text : Bytes) (x : Formula) : Prop :=
  ∃ w ws, text = w ++ ws ∧ Derives .expression w x ∧ Blank ws

/-! ## Soundness -/

namespace Scan

/-- What a scan finds is derived. -/
def Sound (level : Level) (scan : Bytes → Scan) : Prop :=
  ∀ {text x n}, scan text = .found x n → ∃ w rest, text = w ++ rest ∧ n = w.length ∧ Derives level w x.formula

/-- Texts of a level are joined to texts of the level below by operators. -/
def JoinedBy (ops : List Operator) (lower upper : Level) : Prop :=
  ∀ {w ws w' x y o}, Derives upper w x → Blank ws → o ∈ ops → Derives lower w' y →
    Derives upper (w ++ ws ++ o.symbol :: w') (.binary o.symbol x y)

theorem symbol_sumOperators {op : UInt8} : op = Byte.plus ∨ op = Byte.minus ↔ ∃ o ∈ sumOperators, o.symbol = op := by
  simp [sumOperators, Operator.symbol, eq_comm]

theorem symbol_productOperators {op : UInt8} :
    op = Byte.star ∨ op = Byte.slash ↔ ∃ o ∈ productOperators, o.symbol = op := by
  simp [productOperators, Operator.symbol, eq_comm]

theorem joinedBy_sumOperators : JoinedBy sumOperators .term .expression :=
  fun h hws ho h' => .sum h hws (symbol_sumOperators.2 ⟨_, ho, rfl⟩) h'

theorem joinedBy_productOperators : JoinedBy productOperators .factor .term :=
  fun h hws ho h' => .product h hws (symbol_productOperators.2 ⟨_, ho, rfl⟩) h'

theorem exists_operator {ops : List Operator} {text : Bytes} {o : Operator} {n : Nat}
    (h : operator? ops text = some (o, n)) :
    o ∈ ops ∧ ∃ ws rest, text = ws ++ o.symbol :: rest ∧ Blank ws ∧ n = ws.length + 1 := by
  obtain ⟨ho, rfl, rest, hrest⟩ := operator?_eq_some h
  obtain ⟨ws, tail, rfl, hws, hcount, -⟩ := exists_blank text
  rw [hcount, List.drop_left] at hrest
  exact ⟨ho, ws, rest, by rw [hrest], hws, by rw [hcount]⟩

variable {ops : List Operator} {arg : Bytes → Scan} {lower upper : Level}

/-- Going on after a derived text finds a longer derived text. The invariant is that `w` has been used. -/
theorem chainGo_sound (hjoin : JoinedBy ops lower upper) (harg : Sound lower arg) :
    ∀ (turns : Nat) (w rest : Bytes) (left : ParseTree) {x : ParseTree} {n : Nat}, Derives upper w left.formula →
      chainGo ops arg turns rest left w.length = .found x n →
      ∃ w' rest', w ++ rest = w' ++ rest' ∧ n = w'.length ∧ Derives upper w' x.formula
  | 0, w, rest, left, x, n, hleft, h => by
    cases h
    exact ⟨w, rest, rfl, rfl, hleft⟩
  | turns + 1, w, rest, left, x, n, hleft, h => by
    rw [chainGo] at h
    split at h
    · cases h
      exact ⟨w, rest, rfl, rfl, hleft⟩
    · rename_i o k hop
      obtain ⟨ho, ws, rest, rfl, hws, rfl⟩ := exists_operator hop
      have hdrop : (ws ++ o.symbol :: rest).drop (ws.length + 1) = rest := by simp
      rw [hdrop] at h
      split at h
      · cases h
      · rename_i right m hright
        obtain ⟨w', rest, rfl, rfl, hw'⟩ := harg hright
        have hlength : w.length + (ws.length + 1) + w'.length = (w ++ ws ++ o.symbol :: w').length := by
          simp only [List.length_append, List.length_cons]
          omega
        rw [hlength, ← List.drop_drop, hdrop, List.drop_left] at h
        obtain ⟨w'', rest'', heq, hn, hw''⟩ := chainGo_sound hjoin harg turns _ rest _ (hjoin hleft hws ho hw') h
        exact ⟨w'', rest'', by rw [← heq]; simp, hn, hw''⟩

theorem chain_sound (hjoin : JoinedBy ops lower upper) (hfirst : ∀ {w x}, Derives lower w x → Derives upper w x)
    (harg : Sound lower arg) : Sound upper (chain ops arg) := by
  intro text x n h
  unfold chain at h
  split at h
  · cases h
  · rename_i left used hleft
    obtain ⟨w, rest, rfl, rfl, hw⟩ := harg hleft
    rw [List.drop_left] at h
    exact chainGo_sound hjoin harg _ w rest left (hfirst hw) h

theorem declined_ne_found {d : Bytes} {xs : List ParseTree} {why : Failure Empty} {used n : Nat} {x : ParseTree} :
    declined d xs why used ≠ .found x n := by
  unfold declined
  split <;> exact nofun

variable {scan : Bytes → Scan}

theorem parenthesized_sound (hscan : Sound .expression scan) {inner : Bytes} {x : ParseTree} {n : Nat}
    (h : parenthesized scan inner = .found x n) :
    ∃ w ws rest, inner = w ++ ws ++ Byte.closeParen :: rest ∧ n = w.length + ws.length + 2 ∧
      Derives .expression w x.formula ∧ Blank ws := by
  unfold parenthesized at h
  split at h
  · exact absurd h declined_ne_found
  · rename_i x' used hinner
    obtain ⟨w, rest, rfl, rfl, hw⟩ := hscan hinner
    obtain ⟨ws, rest, rfl, hws, hcount, -⟩ := exists_blank rest
    simp only [List.drop_left, hcount] at h
    split at h
    · rename_i hclose
      obtain ⟨rest, rfl⟩ := List.head?_eq_some_iff.1 hclose
      cases h
      exact ⟨w, ws, rest, by simp, by omega, hw, hws⟩
    · exact absurd h declined_ne_found

theorem name_sound {text : Bytes} {x : ParseTree} {n : Nat} (h : name text = .found x n) :
    ∃ w rest, text = w ++ rest ∧ n = w.length ∧ x = .name w ∧ Name w := by
  cases text with
  | nil => exact absurd h declined_ne_found
  | cons b rest =>
    dsimp only [name] at h
    split at h
    · rename_i hb
      split at h
      · rename_i n htail
        obtain ⟨w, rest, rfl, rfl, hw⟩ := exists_nameTail _ htail
        cases h
        exact ⟨b :: w, rest, rfl, rfl, by simp, .mk hb hw⟩
      · exact absurd h declined_ne_found
    · exact absurd h declined_ne_found

theorem number_sound {text : Bytes} {x : ParseTree} {n : Nat} (hne : Parser.numberLength text ≠ 0)
    (h : number text = .found x n) : ∃ w rest, text = w ++ rest ∧ n = w.length ∧ x = .number w ∧ Number w := by
  obtain ⟨w, rest, rfl, hlength, hw⟩ := exists_number hne
  simp only [number, hlength, List.take_left] at h
  split at h
  · cases h
    exact ⟨w, rest, rfl, rfl, rfl, hw⟩
  · exact absurd h declined_ne_found

theorem factor_sound (hscan : Sound .expression scan) : Sound .factor (factor scan) := by
  intro text x n h
  obtain ⟨ws, text, rfl, hws, hcount, -⟩ := exists_blank text
  simp only [factor, hcount, List.drop_left] at h
  cases hatom : atom scan text with
  | stopped xs why used =>
    rw [hatom] at h
    cases h
  | found x' used =>
    rw [hatom] at h
    cases h
    unfold atom at hatom
    split at hatom
    · rename_i hopen
      obtain ⟨inner, rfl⟩ := List.head?_eq_some_iff.1 hopen
      obtain ⟨w, ws', rest, heq, rfl, hw, hws'⟩ := parenthesized_sound hscan hatom
      rw [List.tail_cons] at heq
      refine ⟨ws ++ Byte.openParen :: (w ++ ws' ++ [Byte.closeParen]), rest, ?_, ?_, .parenthesized hws hw hws'⟩
      · simp [heq]
      · simp only [List.length_append, List.length_cons, List.length_nil]
    · split at hatom
      · obtain ⟨w, rest, rfl, rfl, rfl, hw⟩ := name_sound hatom
        exact ⟨ws ++ w, rest, by simp, by simp, .name hws hw⟩
      · rename_i hne
        obtain ⟨w, rest, rfl, rfl, rfl, hw⟩ := number_sound hne hatom
        exact ⟨ws ++ w, rest, by simp, by simp, .number hws hw⟩

theorem sum_sound (hscan : Sound .expression scan) : Sound .expression (sum scan) :=
  chain_sound joinedBy_sumOperators .term (chain_sound joinedBy_productOperators .factor (factor_sound hscan))

theorem nested_sound (depth : Nat) : Sound .expression (nested depth) := by
  induction depth with
  | zero => exact nofun
  | succ depth ih => exact sum_sound ih

/-- What a whole text comes to is derived by it. -/
theorem derivesText_of_conclude {text : Bytes} {x : ParseTree} (h : (expression text).conclude text = .ok x) :
    DerivesText text x.formula := by
  obtain ⟨used, hfound, hend⟩ := conclude_eq_ok h
  obtain ⟨w, rest, hsplit, rfl, hw⟩ := sum_sound (nested_sound text.length) hfound
  obtain ⟨ws, tail, rfl, hws, hcount, -⟩ := exists_blank rest
  subst hsplit
  refine ⟨w, ws, ?_, hw, hws⟩
  rw [List.drop_left, hcount, ← List.drop_drop, List.drop_left, List.drop_left] at hend
  rw [hend, List.append_nil]

/-! ## Completeness -/

theorem operator?_append {o : Operator} (ho : o ∈ ops) {ws : Bytes} (hws : Blank ws) (rest : Bytes) :
    operator? ops (ws ++ o.symbol :: rest) = some (o, ws.length + 1) := by
  have hcount : Blanks.all.count (ws ++ o.symbol :: rest) = ws.length := by
    apply count_append hws
    rintro b ⟨⟩
    cases o <;> decide
  have hfind : ops.find? (fun o' => decide ((o.symbol :: rest).head? = some o'.symbol)) = some o := by
    cases hfind : ops.find? (fun o' => decide ((o.symbol :: rest).head? = some o'.symbol)) with
    | none =>
      have := List.find?_eq_none.1 hfind o ho
      simp at this
    | some o' =>
      have heq := List.find?_some hfind
      simp only [List.head?_cons, Option.some.injEq, decide_eq_true_eq] at heq
      have hsame := congrArg Operator.ofSymbol? heq
      rw [Operator.ofSymbol?_symbol, Operator.ofSymbol?_symbol] at hsame
      exact hsame.symm
  rw [operator?, hcount]
  rw [List.drop_left, hfind]
  rfl

theorem operator?_eq_none {ws rest : Bytes} (hws : Blank ws)
    (hrest : ∀ b ∈ rest.head?, ¬IsBlank b ∧ ∀ o ∈ ops, b ≠ o.symbol) : operator? ops (ws ++ rest) = none := by
  have hcount := count_append hws fun b hb => (hrest b hb).1
  rw [operator?, hcount]
  rw [List.drop_left, Option.map_eq_none_iff, List.find?_eq_none]
  intro o ho hhead
  exact (hrest o.symbol (by simpa using hhead)).2 o ho rfl

theorem sum_not_product :
    ∀ o ∈ sumOperators, ¬IsBlank o.symbol ∧ ∀ o' ∈ productOperators, o.symbol ≠ o'.symbol := by
  decide

/-- A scan of a chain comes by the place where `rest` begins, with `tree` behind it and turns enough for all of
`rest`. -/
def Reaches (ops : List Operator) (arg : Bytes → Scan) (text : Bytes) (tree : ParseTree) (used : Nat) (rest : Bytes) :
    Prop :=
  ∃ turns, rest.length ≤ turns ∧ chain ops arg text = chainGo ops arg turns rest tree used

theorem reaches_first {w rest : Bytes} {tree : ParseTree} (h : arg (w ++ rest) = .found tree w.length) :
    Reaches ops arg (w ++ rest) tree w.length rest := by
  refine ⟨rest.length, Nat.le_refl _, ?_⟩
  rw [chain, h]
  dsimp only
  rw [List.drop_left]

theorem Reaches.join {w ws w' rest : Bytes} {left right : ParseTree} {o : Operator}
    (h : Reaches ops arg (w ++ (ws ++ o.symbol :: (w' ++ rest))) left w.length (ws ++ o.symbol :: (w' ++ rest)))
    (ho : o ∈ ops) (hws : Blank ws) (hright : arg (w' ++ rest) = .found right w'.length) :
    Reaches ops arg (w ++ ws ++ o.symbol :: w' ++ rest) (.operation o left right) (w ++ ws ++ o.symbol :: w').length
      rest := by
  obtain ⟨turns, hturns, hchain⟩ := h
  have htext : w ++ ws ++ o.symbol :: w' ++ rest = w ++ (ws ++ o.symbol :: (w' ++ rest)) := by simp
  have hdrop : (ws ++ o.symbol :: (w' ++ rest)).drop (ws.length + 1) = w' ++ rest := by simp
  have hlength : (w ++ ws ++ o.symbol :: w').length = w.length + (ws.length + 1) + w'.length := by
    simp only [List.length_append, List.length_cons]
    omega
  simp only [List.length_append, List.length_cons] at hturns
  obtain ⟨turns, rfl⟩ : ∃ k, turns = k + 1 := ⟨turns - 1, by omega⟩
  refine ⟨turns, by omega, ?_⟩
  rw [htext, hlength, hchain, chainGo, operator?_append ho hws]
  dsimp only
  rw [hdrop, hright]
  dsimp only
  rw [← List.drop_drop, hdrop, List.drop_left]

theorem Reaches.found {text rest : Bytes} {tree : ParseTree} {used : Nat} (h : Reaches ops arg text tree used rest)
    (hrest : operator? ops rest = none) : chain ops arg text = .found tree used := by
  obtain ⟨turns, -, hchain⟩ := h
  rw [hchain]
  cases turns with
  | zero => rfl
  | succ turns => rw [chainGo, hrest]

end Scan

namespace Lexeme

theorem delimited_of_blank {ws rest : Bytes} (hws : Blank ws) (hrest : Delimited rest) : Delimited (ws ++ rest) := by
  cases ws with
  | nil => exact hrest
  | cons b ws =>
    rintro _ ⟨⟩
    rcases hws b List.mem_cons_self with rfl | rfl | rfl | rfl <;> decide

theorem delimited_of_symbol (o : Operator) (rest : Bytes) : Delimited (o.symbol :: rest) := by
  rintro _ ⟨⟩
  cases o <;> decide

theorem delimited_of_closeParen (rest : Bytes) : Delimited (Byte.closeParen :: rest) := by
  rintro _ ⟨⟩
  decide

end Lexeme

namespace Scan

variable {scan : Bytes → Scan}

theorem factor_append {ws text : Bytes} {tree : ParseTree} {n : Nat} (hws : Blank ws)
    (htext : ∀ b ∈ text.head?, ¬IsBlank b) (h : atom scan text = .found tree n) :
    factor scan (ws ++ text) = .found tree (ws.length + n) := by
  rw [factor, count_append hws htext, List.drop_left, h]
  rfl

theorem atom_parenthesized {w ws rest : Bytes} {tree : ParseTree} (hws : Blank ws)
    (h : scan (w ++ (ws ++ Byte.closeParen :: rest)) = .found tree w.length) :
    atom scan (Byte.openParen :: (w ++ (ws ++ Byte.closeParen :: rest))) = .found tree (w.length + ws.length + 2) := by
  have hcount : Blanks.all.count (ws ++ Byte.closeParen :: rest) = ws.length := by
    apply count_append hws
    rintro b ⟨⟩
    decide
  have hopen : (Byte.openParen :: (w ++ (ws ++ Byte.closeParen :: rest))).head? = some Byte.openParen := rfl
  have hclose : (Byte.closeParen :: rest).head? = some Byte.closeParen := rfl
  rw [atom, if_pos hopen, List.tail_cons, parenthesized, h]
  dsimp only
  rw [List.drop_left, hcount, List.drop_left, if_pos hclose]
  congr 1
  omega

theorem atom_number {w rest : Bytes} (hw : Number w) (hrest : Delimited rest) :
    atom scan (w ++ rest) = .found (.number w) w.length := by
  have hlength := numberLength_append hw hrest
  have hform := form?_number hw
  obtain ⟨b, tail, rfl, hb⟩ := head_of_number hw
  have hopen : ((b :: tail) ++ rest).head? ≠ some Byte.openParen := by
    intro h
    cases h
    exact absurd hb (by decide)
  rw [atom, if_neg hopen, hlength, if_neg (by simp), number, hlength, List.take_left, if_pos hform]

theorem atom_name {w rest : Bytes} (hw : Name w) (hrest : Delimited rest) :
    atom scan (w ++ rest) = .found (.name w) w.length := by
  obtain @⟨b, w, hb, hw⟩ := hw
  have hopen : (b :: w ++ rest).head? ≠ some Byte.openParen := by
    intro h
    cases h
    cases hb
  have hnumber : Parser.numberLength (b :: w ++ rest) = 0 := by
    refine Classical.byContradiction fun hne => ?_
    obtain ⟨b', tail, heq, hb'⟩ := Parser.head_of_numberLength hne
    obtain rfl := (List.cons.inj heq).1
    rw [(Parser.not_letter_of_number hb').1] at hb
    cases hb
  rw [atom, if_neg hopen, if_pos hnumber, List.cons_append, name, if_pos hb, wordTail_append hw hrest]
  simp

end Scan

/-- What a derivation says about scans, level by level. -/
def IsScanned : Level → Bytes → Formula → Prop
  | .expression, w, x => ∀ depth rest, w.length ≤ depth → Delimited rest →
      Scan.operator? Scan.productOperators rest = none → ∃ tree : ParseTree, tree.formula = x ∧
        Scan.Reaches Scan.sumOperators (Scan.term (Scan.nested depth)) (w ++ rest) tree w.length rest
  | .term, w, x => ∀ depth rest, w.length ≤ depth → Delimited rest → ∃ tree : ParseTree, tree.formula = x ∧
      Scan.Reaches Scan.productOperators (Scan.factor (Scan.nested depth)) (w ++ rest) tree w.length rest
  | .factor, w, x => ∀ depth rest, w.length ≤ depth → Delimited rest → ∃ tree : ParseTree, tree.formula = x ∧
      Scan.factor (Scan.nested depth) (w ++ rest) = .found tree w.length

theorem Derives.isScanned {level : Level} {w : Bytes} {x : Formula} (h : Derives level w x) : IsScanned level w x := by
  induction h with
  | term _ ih =>
    intro depth rest hdepth hrest hnone
    obtain ⟨tree, hx, hreaches⟩ := ih depth rest hdepth hrest
    exact ⟨tree, hx, Scan.reaches_first (hreaches.found hnone)⟩
  | @sum w ws w' x y op _ hws hop _ ih ih' =>
    intro depth rest hdepth hrest hnone
    obtain ⟨o, ho, rfl⟩ := Scan.symbol_sumOperators.1 hop
    simp only [List.length_append, List.length_cons] at hdepth
    have hnone' : Scan.operator? Scan.productOperators (ws ++ o.symbol :: (w' ++ rest)) = none := by
      apply Scan.operator?_eq_none hws
      rintro b ⟨⟩
      exact Scan.sum_not_product o ho
    obtain ⟨left, hx, hleft⟩ := ih depth _ (by omega) (delimited_of_blank hws (delimited_of_symbol o _)) hnone'
    obtain ⟨right, hy, hright⟩ := ih' depth rest (by omega) hrest
    refine ⟨.operation o left right, by rw [ParseTree.formula, hx, hy], ?_⟩
    exact hleft.join ho hws (hright.found hnone)
  | factor _ ih =>
    intro depth rest hdepth hrest
    obtain ⟨tree, hx, hfound⟩ := ih depth rest hdepth hrest
    exact ⟨tree, hx, Scan.reaches_first hfound⟩
  | @product w ws w' x y op _ hws hop _ ih ih' =>
    intro depth rest hdepth hrest
    obtain ⟨o, ho, rfl⟩ := Scan.symbol_productOperators.1 hop
    simp only [List.length_append, List.length_cons] at hdepth
    obtain ⟨left, hx, hleft⟩ := ih depth _ (by omega) (delimited_of_blank hws (delimited_of_symbol o _))
    obtain ⟨right, hy, hright⟩ := ih' depth rest (by omega) hrest
    refine ⟨.operation o left right, by rw [ParseTree.formula, hx, hy], ?_⟩
    exact hleft.join ho hws hright
  | @parenthesized ws w ws' x hws _ hws' ih =>
    intro depth rest hdepth hrest
    simp only [List.length_append, List.length_cons, List.length_nil] at hdepth
    obtain ⟨depth, rfl⟩ : ∃ d, depth = d + 1 := ⟨depth - 1, by omega⟩
    have hnone : ∀ ops, Scan.operator? ops (ws' ++ Byte.closeParen :: rest) = none := by
      intro ops
      apply Scan.operator?_eq_none hws'
      rintro b ⟨⟩
      exact ⟨by decide, fun o _ => by cases o <;> decide⟩
    obtain ⟨tree, hx, hreaches⟩ := ih depth (ws' ++ Byte.closeParen :: rest) (by omega)
      (delimited_of_blank hws' (delimited_of_closeParen rest)) (hnone _)
    have hinner : Scan.nested (depth + 1) (w ++ (ws' ++ Byte.closeParen :: rest)) = .found tree w.length :=
      hreaches.found (hnone _)
    have hfactor := Scan.factor_append hws (by rintro b ⟨⟩; decide) (Scan.atom_parenthesized hws' hinner)
    refine ⟨tree, hx, ?_⟩
    simpa [Nat.add_assoc] using hfactor
  | @number ws w hws hw =>
    intro depth rest hdepth hrest
    have hblank : ∀ b ∈ (w ++ rest).head?, ¬IsBlank b := by
      obtain ⟨b, tail, rfl, hb⟩ := head_of_number hw
      rintro _ ⟨⟩ (rfl | rfl | rfl | rfl) <;> exact absurd hb (by decide)
    refine ⟨.number w, rfl, ?_⟩
    rw [List.append_assoc, List.length_append]
    exact Scan.factor_append hws hblank (Scan.atom_number hw hrest)
  | @name ws w hws hw =>
    intro depth rest hdepth hrest
    have hblank : ∀ b ∈ (w ++ rest).head?, ¬IsBlank b := by
      obtain ⟨hb, -⟩ := hw
      rintro _ ⟨⟩ (rfl | rfl | rfl | rfl) <;> exact absurd hb (by decide)
    refine ⟨.name w, rfl, ?_⟩
    rw [List.append_assoc, List.length_append]
    exact Scan.factor_append hws hblank (Scan.atom_name hw hrest)

/-- A text that derives a formula comes to a tree of that formula. -/
theorem DerivesText.conclude {text : Bytes} {x : Formula} (h : DerivesText text x) :
    ∃ tree : ParseTree, tree.formula = x ∧ (Scan.expression text).conclude text = .ok tree := by
  obtain ⟨w, ws, rfl, hw, hws⟩ := h
  have hnone : ∀ ops, Scan.operator? ops ws = none := by
    intro ops
    have h : Scan.operator? ops (ws ++ []) = none := Scan.operator?_eq_none hws (by simp)
    rwa [List.append_nil] at h
  have hrest : Delimited ws := by
    have h : Delimited (ws ++ []) := delimited_of_blank hws (by simp [Delimited])
    rwa [List.append_nil] at h
  have hcount : Blanks.all.count ws = ws.length := by
    have h : Blanks.all.count (ws ++ []) = ws.length := count_append hws (by simp)
    rwa [List.append_nil] at h
  obtain ⟨tree, hx, hreaches⟩ := hw.isScanned (w ++ ws).length ws (by simp) hrest (hnone _)
  have hfound : Scan.expression (w ++ ws) = .found tree w.length := hreaches.found (hnone _)
  refine ⟨tree, hx, ?_⟩
  rw [hfound, Scan.conclude]
  simp [hcount]

/-- **Parsing is the grammar.** A text is parsed to the formulas that it derives, and to no others; if it derives none,
it is malformed somewhere. -/
theorem parse_eq_ok_iff_derivesText (text : Bytes) :
    (∀ x, Formula.parse text = .ok x ↔ DerivesText text x) ∧
      ((∃ x, DerivesText text x) ∨ ∃ position why, Formula.parse text = .error (.malformed position why)) := by
  have hparse := Formula.parse_eq text
  cases hverdict : (Scan.expression text).conclude text with
  | ok tree =>
    rw [hverdict] at hparse
    have hderives := Scan.derivesText_of_conclude hverdict
    refine ⟨fun x => ⟨fun h => ?_, fun h => ?_⟩, .inl ⟨_, hderives⟩⟩
    · rw [hparse] at h
      cases h
      exact hderives
    · obtain ⟨tree', rfl, htree⟩ := h.conclude
      rw [hverdict] at htree
      cases htree
      exact hparse
  | error verdict =>
    rw [hverdict] at hparse
    refine ⟨fun x => ⟨fun h => ?_, fun h => ?_⟩, .inr ⟨_, _, hparse⟩⟩
    · rw [hparse] at h
      cases h
    · obtain ⟨tree, -, htree⟩ := h.conclude
      rw [hverdict] at htree
      cases htree

end ComplexFormula
