import ComplexFormula.Proofs.Grammar.Printing
import Mathlib

/-!
# Malformed texts begin well

Where a text is found to be malformed, what stands before that place can be completed to a formula, and the builder was
called for nothing that is not in the completed formula.

This is said of scans first. A scan that stops leaves a text that can be completed to one of its level, and the trees
that were complete are the first subtrees of the completed text in post-order (`Scan.Halted`). Each combinator keeps
this: chains add the operand that is missing, parentheses are closed. Places move backwards in two of them. A failure at
the start of an expression in parentheses is one before the parenthesis, and blanks before a factor are given back; in
both cases nothing was complete (`Halted.silent`), so that any formula completes the text.
-/

namespace ComplexFormula

open Lexeme

/-- Causes that only the text has. The others are for builders that refuse, for numbers that cannot be read and for
operators next to something that is no operand. -/
def Cause.Textual {ε : Type} : Cause ε → Prop
  | .literalExpected _ | .wordExpected | .badCharacter | .oneOfExpected _ | .unexpected _ => True
  | .numberExpected | .operatorExpected _ | .malformedNumber _ | .refused _ => False

theorem Cause.Textual.lift {ε : Type} {why : Failure Empty} (h : why.cause.Textual) :
    (why.lift : Failure ε).cause.Textual := by
  obtain ⟨labels, cause⟩ := why
  cases cause with
  | refused error => exact error.elim
  | _ => exact h

theorem ParseTree.formula_injective {x y : ParseTree} (h : x.formula = y.formula) : x = y := by
  induction x generalizing y with
  | number text =>
    cases y <;> cases h
    rfl
  | name id =>
    cases y <;> cases h
    rfl
  | operation op l r ihl ihr =>
    cases y with
    | number | name => cases h
    | operation op' l' r' =>
      obtain ⟨hsymbol, hl, hr⟩ := Formula.binary.inj h
      have hop := congrArg Operator.ofSymbol? hsymbol
      rw [Operator.ofSymbol?_symbol, Operator.ofSymbol?_symbol, Option.some.injEq] at hop
      rw [hop, ihl hl, ihr hr]

namespace Scan

/-- What holds where a scan of `text` stops after `n` bytes, with the trees `xs` complete. -/
structure Halted (level : Level) (text : Bytes) (xs : List ParseTree) (why : Failure Empty) (n : Nat) : Prop where
  le_length : n ≤ text.length
  silent : n = 0 → xs = []
  textual : why.cause.Textual
  viable : ∃ rest tree, Derives level (text.take n ++ rest) (ParseTree.formula tree) ∧
    xs.flatMap ParseTree.postorder <+: tree.postorder

/-- The scan stops well wherever it stops. -/
def Halts (level : Level) (scan : Bytes → Scan) : Prop :=
  ∀ {text xs why n}, scan text = .stopped xs why n → Halted level text xs why n

variable {level lower upper : Level} {text : Bytes} {xs : List ParseTree} {why : Failure Empty} {n : Nat}

/-! ## Places -/

theorem derives_argument (level : Level) : Derives level [Byte.letterZ] (.name [Byte.letterZ]) := by
  have hfactor : Derives .factor ([] ++ [Byte.letterZ]) (.name [Byte.letterZ]) := .name blank_nil (.mk rfl .nil)
  cases level with
  | factor => exact hfactor
  | term => exact .factor hfactor
  | expression => exact .term (.factor hfactor)

/-- At the start of a text, everything can still follow. -/
theorem halted_start (level : Level) (text : Bytes) (hwhy : why.cause.Textual) : Halted level text [] why 0 where
  le_length := Nat.zero_le _
  silent _ := rfl
  textual := hwhy
  viable := ⟨[Byte.letterZ], .name [Byte.letterZ], derives_argument level, List.nil_prefix⟩

theorem Halted.under (h : Halted level text xs why n) (label : Bytes) : Halted level text xs (why.under label) n where
  le_length := h.le_length
  silent := h.silent
  textual := h.textual
  viable := h.viable

theorem Halted.lift (h : Halted lower text xs why n) (hlevel : ∀ {w x}, Derives lower w x → Derives upper w x) :
    Halted upper text xs why n where
  le_length := h.le_length
  silent := h.silent
  textual := h.textual
  viable := by
    obtain ⟨rest, tree, hderives, hcalls⟩ := h.viable
    exact ⟨rest, tree, hlevel hderives, hcalls⟩

/-- Behind a text with something in it, places move by its length. -/
theorem Halted.behind (h : Halted lower text xs why n) (before rest : Bytes) (tree : ParseTree) {ys : List ParseTree}
    (hne : before ≠ []) (hderives : Derives upper (before ++ text.take n ++ rest) tree.formula)
    (hcalls : ys.flatMap ParseTree.postorder <+: tree.postorder) :
    Halted upper (before ++ text) ys why (before.length + n) where
  le_length := by
    rw [List.length_append]
    exact Nat.add_le_add_left h.le_length _
  silent hzero := absurd (List.eq_nil_of_length_eq_zero (by omega)) hne
  textual := h.textual
  viable := by
    refine ⟨rest, tree, ?_, hcalls⟩
    rwa [List.take_length_add_append]

/-! ## Chains -/

section Chains

variable {ops : List Operator} {arg : Bytes → Scan}

/-- An operand that stops leaves an operation without its right side. The invariant is that `w` has been used. -/
theorem chainGo_halts (hjoin : JoinedBy ops lower upper) (hsound : Sound lower arg) (harg : Halts lower arg) :
    ∀ (turns : Nat) (w rest : Bytes) (left : ParseTree) {xs : List ParseTree} {why : Failure Empty} {n : Nat},
      Derives upper w left.formula → chainGo ops arg turns rest left w.length = .stopped xs why n →
      Halted upper (w ++ rest) xs why n
  | 0, _, _, _, _, _, _, _, h => by cases h
  | turns + 1, w, rest, left, xs, why, n, hleft, h => by
    rw [chainGo] at h
    split at h
    · cases h
    · rename_i o k hop
      obtain ⟨ho, ws, rest, rfl, hws, rfl⟩ := exists_operator hop
      have hdrop : (ws ++ o.symbol :: rest).drop (ws.length + 1) = rest := by simp
      rw [hdrop] at h
      split at h
      · rename_i ys why m hright
        cases h
        have hhalted := harg hright
        obtain ⟨tail, tree, hderives, hcalls⟩ := hhalted.viable
        have hlength : w.length + (ws.length + 1) + m = (w ++ ws ++ [o.symbol]).length + m := by
          simp only [List.length_append, List.length_cons, List.length_nil]
          omega
        have htext : w ++ (ws ++ o.symbol :: rest) = w ++ ws ++ [o.symbol] ++ rest := by simp
        rw [hlength, htext]
        refine (hhalted.under _).behind (w ++ ws ++ [o.symbol]) tail (.operation o left tree) (by simp) ?_ ?_
        · have hjoined := hjoin hleft hws ho hderives
          simpa [ParseTree.formula] using hjoined
        · rw [List.flatMap_cons, ParseTree.postorder, List.append_assoc]
          exact (List.prefix_append_right_inj _).2 (hcalls.trans (List.prefix_append _ _))
      · rename_i right m hright
        obtain ⟨w', rest, rfl, rfl, hw'⟩ := hsound hright
        have hlength : w.length + (ws.length + 1) + w'.length = (w ++ ws ++ o.symbol :: w').length := by
          simp only [List.length_append, List.length_cons]
          omega
        rw [hlength, ← List.drop_drop, hdrop, List.drop_left] at h
        have hhalted := chainGo_halts hjoin hsound harg turns _ rest _ (hjoin hleft hws ho hw') h
        have htext : w ++ (ws ++ o.symbol :: (w' ++ rest)) = w ++ ws ++ o.symbol :: w' ++ rest := by simp
        rwa [htext]

theorem chain_halts (hjoin : JoinedBy ops lower upper) (hfirst : ∀ {w x}, Derives lower w x → Derives upper w x)
    (hsound : Sound lower arg) (harg : Halts lower arg) : Halts upper (chain ops arg) := by
  intro text xs why n h
  unfold chain at h
  split at h
  · rename_i hstopped
    cases h
    exact ((harg hstopped).lift hfirst).under _
  · rename_i left used hleft
    obtain ⟨w, rest, rfl, rfl, hw⟩ := hsound hleft
    rw [List.drop_left] at h
    exact chainGo_halts hjoin hsound harg _ w rest left (hfirst hw) h

end Chains

/-! ## Factors -/

section Factors

variable {scan : Bytes → Scan}

/-- An alternative that used nothing is not the one to blame. -/
theorem declined_halts {description : Bytes} {used : Nat} {ys : List ParseTree} {why' : Failure Empty}
    (h : declined description ys why' used = .stopped xs why n) (hhalted : Halted level text ys why' used) :
    Halted level text xs why n := by
  unfold declined at h
  split at h
  · rename_i hzero
    cases h
    rw [hhalted.silent hzero]
    exact halted_start level text trivial
  · cases h
    exact hhalted.under _

theorem parenthesized_halts (hsound : Sound .expression scan) (hscan : Halts .expression scan) {inner : Bytes}
    (h : parenthesized scan inner = .stopped xs why n) : Halted .factor (Byte.openParen :: inner) xs why n := by
  unfold parenthesized at h
  split at h
  · rename_i ys why' used hinner
    have hhalted := hscan hinner
    refine declined_halts h ?_
    by_cases hzero : used = 0
    · rw [if_pos hzero, hhalted.silent hzero]
      exact halted_start .factor _ hhalted.textual
    · rw [if_neg hzero]
      obtain ⟨rest, tree, hderives, hcalls⟩ := hhalted.viable
      refine (hhalted.under _).behind [Byte.openParen] (rest ++ [Byte.closeParen]) tree (by simp) ?_ hcalls
      have hclosed := Derives.parenthesized blank_nil hderives blank_nil
      simpa using hclosed
  · rename_i x used hinner
    obtain ⟨w, rest, rfl, rfl, hw⟩ := hsound hinner
    dsimp only at h
    split at h
    · cases h
    · refine declined_halts h ?_
      refine ⟨?_, by omega, trivial, [Byte.closeParen], x, ?_, by simp⟩
      · simp only [List.length_cons, List.length_append]
        omega
      · have hclosed := Derives.parenthesized blank_nil hw blank_nil
        have htake : (Byte.openParen :: (w ++ rest)).take (1 + w.length) = Byte.openParen :: w := by
          rw [Nat.add_comm, List.take_succ_cons, List.take_left]
        rw [htake]
        simpa using hclosed

/-- A name stops at a character that cannot be in it. What stands before is a name. -/
theorem name_halts (h : name text = .stopped xs why n) : Halted .factor text xs why n := by
  cases text with
  | nil => exact declined_halts h (halted_start .factor [] trivial)
  | cons b rest =>
    dsimp only [name] at h
    split at h
    · rename_i hb
      split at h
      · cases h
      · rename_i m htail
        obtain ⟨w, rest, rfl, rfl, hw⟩ := exists_nameTail _ htail
        refine declined_halts h ⟨?_, by omega, trivial, [], .name (b :: w), ?_, List.nil_prefix⟩
        · simp
        · rw [List.take_succ_cons, List.take_left, List.append_nil]
          exact .name blank_nil (.mk hb hw)
    · exact declined_halts h (halted_start .factor _ trivial)

/-- A number that was scanned can be read. -/
theorem number_ne_stopped (hne : Parser.numberLength text ≠ 0) : number text ≠ .stopped xs why n := by
  obtain ⟨w, rest, rfl, hlength, hw⟩ := exists_number hne
  rw [number, hlength, List.take_left, if_pos (form?_number hw)]
  intro h
  cases h

theorem factor_halts (hsound : Sound .expression scan) (hscan : Halts .expression scan) :
    Halts .factor (factor scan) := by
  intro text xs why n h
  obtain ⟨ws, text, rfl, hws, hcount, -⟩ := exists_blank text
  simp only [factor, hcount, List.drop_left] at h
  cases hatom : atom scan text with
  | found x used =>
    rw [hatom] at h
    cases h
  | stopped ys why' used =>
    rw [hatom] at h
    cases h
    have hhalted : Halted .factor text xs why' used := by
      unfold atom at hatom
      split at hatom
      · rename_i hopen
        obtain ⟨inner, rfl⟩ := List.head?_eq_some_iff.1 hopen
        exact parenthesized_halts hsound hscan hatom
      · split at hatom
        · exact name_halts hatom
        · rename_i hne
          exact absurd hatom (number_ne_stopped hne)
    by_cases hzero : used = 0
    · rw [if_pos hzero, hhalted.silent hzero]
      exact halted_start .factor _ hhalted.textual
    · rw [if_neg hzero]
      obtain ⟨rest, tree, hderives, hcalls⟩ := hhalted.viable
      refine ⟨?_, by omega, hhalted.textual, rest, tree, ?_, hcalls⟩
      · rw [List.length_append]
        exact Nat.add_le_add_left hhalted.le_length _
      · rw [List.take_length_add_append, List.append_assoc]
        exact hderives.behindBlanks hws

end Factors

/-! ## Texts -/

theorem sum_halts {scan : Bytes → Scan} (hsound : Sound .expression scan) (hscan : Halts .expression scan) :
    Halts .expression (sum scan) :=
  chain_halts joinedBy_sumOperators .term (chain_sound joinedBy_productOperators .factor (factor_sound hsound))
    (chain_halts joinedBy_productOperators .factor (factor_sound hsound) (factor_halts hsound hscan))

theorem nested_halts (depth : Nat) : Halts .expression (nested depth) := by
  induction depth with
  | zero =>
    intro text xs why n h
    cases h
    exact halted_start .expression text trivial
  | succ depth ih => exact sum_halts (nested_sound depth) ih

/-- **Where a text is malformed**, it begins like a text of a formula, and so do its trees. -/
theorem exists_completion {position : Nat} (h : (expression text).conclude text = .error (position, why)) :
    position ≤ text.length ∧ why.cause.Textual ∧ ∃ text' tree, text.take position <+: text' ∧
      DerivesText text' (ParseTree.formula tree) ∧
      (expression text).trees.flatMap ParseTree.postorder <+: tree.postorder := by
  cases hscan : expression text with
  | stopped xs why' used =>
    rw [hscan] at h
    cases h
    have hhalted : Halted .expression text xs why position :=
      sum_halts (nested_sound text.length) (nested_halts text.length) hscan
    obtain ⟨rest, tree, hderives, hcalls⟩ := hhalted.viable
    refine ⟨hhalted.le_length, hhalted.textual, text.take position ++ rest, tree, List.prefix_append _ _, ?_, hcalls⟩
    exact ⟨_, [], (List.append_nil _).symm, hderives, blank_nil⟩
  | found x used =>
    obtain ⟨w, rest, hsplit, rfl, hw⟩ := sum_sound (nested_sound text.length) hscan
    obtain ⟨ws, tail, rfl, hws, hcount, -⟩ := exists_blank rest
    subst hsplit
    rw [hscan] at h
    simp only [conclude, List.drop_left, hcount] at h
    split at h
    · cases h
    · cases h
      refine ⟨?_, trivial, w ++ ws, x, ?_, ⟨w, ws, rfl, hw, hws⟩, by simp [trees]⟩
      · simp only [List.length_append]
        omega
      · rw [List.take_length_add_append, List.take_left]

end Scan

/-- The calls of a text that derives the formula of a tree are those of the tree. -/
theorem DerivesText.callsOf_eq {text : Bytes} {tree : ParseTree} (h : DerivesText text tree.formula) :
    Formula.parse text = .ok tree.formula ∧ callsOf text = tree.postorder := by
  obtain ⟨tree', hformula, hverdict⟩ := h.conclude
  obtain rfl := ParseTree.formula_injective hformula
  obtain ⟨used, hscan, -⟩ := Scan.conclude_eq_ok hverdict
  refine ⟨by rw [Formula.parse_eq, hverdict], ?_⟩
  rw [ComplexFormula.callsOf_eq, hscan]
  simp [Scan.trees]

variable {σ ε α : Type} {builder : Builder σ ε α} {text : Bytes} {state state' : σ} {position : Nat}

/-- A builder that is told of a malformed text was called for all the trees before that. -/
theorem conclude_of_drive_malformed {why : Failure ε}
    (h : builder.drive text state = (.error (.malformed position why), state')) :
    ∃ cause, (Scan.expression text).conclude text = .error (position, cause) ∧ why = cause.lift ∧
      ∃ waiting, builder.perform (callsOf text) [] state = (.ok waiting, state') := by
  rcases hfold : ParseTree.foldAll builder (Scan.expression text).trees state with ⟨e | values, s⟩
  · rw [drive_of_foldAll_error hfold] at h
    cases h
  · have hdrive := drive_of_foldAll_ok hfold
    split at hdrive
    · obtain ⟨a, -, -, hdrive⟩ := hdrive
      rw [hdrive] at h
      cases h
    · rename_i hverdict
      rw [hdrive] at h
      cases h
      refine ⟨_, hverdict, rfl, values.reverse ++ [], ?_⟩
      rw [callsOf_eq, ParseTree.perform_flatMap_postorder, map_eq_pure_bind, Build.bind_ok _ hfold]
      rfl

/-- **A text is malformed behind a viable prefix.** The position of a malformed text is one in the text. What stands
before it begins a text that has a formula, and reading that text makes the same calls first that the builder got. -/
theorem malformed_behind_viable_prefix {why : Failure ε}
    (h : builder.drive text state = (.error (.malformed position why), state')) :
    position ≤ text.length ∧ (∃ waiting, builder.perform (callsOf text) [] state = (.ok waiting, state')) ∧
      ∃ text' x, text.take position <+: text' ∧ Formula.parse text' = .ok x ∧ callsOf text <+: callsOf text' := by
  obtain ⟨cause, hverdict, -, hcalls⟩ := conclude_of_drive_malformed h
  obtain ⟨hle, -, text', tree, hprefix, hderives, htrees⟩ := Scan.exists_completion hverdict
  obtain ⟨hparse, hcallsOf⟩ := hderives.callsOf_eq
  refine ⟨hle, hcalls, text', tree.formula, hprefix, hparse, ?_⟩
  rw [hcallsOf, callsOf_eq]
  exact htrees

/-- The second operand of `z*( (+z)` fails at its start, and so do both parentheses around it. -/
theorem malformed_behind_viable_prefix_parentheses :
    (∃ why, Formula.builder.drive (bytes "z*( (+z)") () = (.error (.malformed 2 why), ())) ∧
    callsOf (bytes "z*( (+z)") = [.name [Byte.letterZ]] ∧
    ∃ text' x, bytes "z*" <+: text' ∧ Formula.parse text' = .ok x ∧ [.name [Byte.letterZ]] <+: callsOf text' := by
  have hdrive : ∃ why, Formula.builder.drive (bytes "z*( (+z)") () = (.error (.malformed 2 why), ()) := ⟨_, by cbv⟩
  have hcalls : callsOf (bytes "z*( (+z)") = [.name [Byte.letterZ]] := by decide +kernel
  have hbefore : (bytes "z*( (+z)").take 2 = bytes "z*" := by decide
  obtain ⟨why, hwhy⟩ := hdrive
  obtain ⟨-, -, text', x, hprefix, hparse, hfirst⟩ := malformed_behind_viable_prefix hwhy
  rw [hbefore] at hprefix
  rw [hcalls] at hfirst
  exact ⟨⟨why, hwhy⟩, hcalls, text', x, hprefix, hparse, hfirst⟩

end ComplexFormula
