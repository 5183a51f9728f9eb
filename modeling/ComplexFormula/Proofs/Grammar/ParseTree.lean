import ComplexFormula.Components

/-!
# Parse trees and the calls they stand for

A parse tree is a formula that a text can have: nothing is missing, and every operation has one of the four operators.
Any builder folds a tree bottom-up, from left to right (`fold`). The same work can be spelled out as a sequence of
calls, in which an operator takes the last two results that wait for one (`perform`); the sequence of a tree is its
post-order (`perform_postorder`).
-/

namespace ComplexFormula

variable {σ ε α : Type}

inductive ParseTree where
  | number (text : Bytes)
  | name (id : Bytes)
  | operation (op : Operator) (left right : ParseTree)

/-- A call of a builder. -/
inductive Callback where
  | number (text : Bytes)
  | name (id : Bytes)
  | operator (op : Operator)
deriving DecidableEq

/-! ## Calls -/

namespace Builder

/-- One call, given the results that wait for an operator, the last one first. An operator takes two of them, and is
not called if there are fewer. -/
def answer (builder : Builder σ ε α) : Callback → (waiting : List α) → Build σ ε (List α)
  | .number text, waiting => do
    let a ← builder.number text
    return a :: waiting
  | .name id, waiting => do
    let a ← builder.name id
    return a :: waiting
  | .operator op, right :: left :: waiting => do
    let a ← builder.binary op left right
    return a :: waiting
  | .operator _, waiting => return waiting

/-- The calls in order, up to the first that fails. -/
def perform (builder : Builder σ ε α) : List Callback → (waiting : List α) → Build σ ε (List α)
  | [], waiting => return waiting
  | call :: rest, waiting => do
    let waiting ← builder.answer call waiting
    builder.perform rest waiting

end Builder

/-! ## Trees -/

namespace ParseTree

def formula : ParseTree → Formula
  | .number text => .number text
  | .name id => .name id
  | .operation op l r => .binary op.symbol l.formula r.formula

/-- Operands from left to right, then their operator. -/
def postorder : ParseTree → List Callback
  | .number text => [.number text]
  | .name id => [.name id]
  | .operation op l r => l.postorder ++ r.postorder ++ [.operator op]

/-- What a builder makes of a tree. -/
def fold (builder : Builder σ ε α) : ParseTree → Build σ ε α
  | .number text => builder.number text
  | .name id => builder.name id
  | .operation op l r => do
    let x ← l.fold builder
    let y ← r.fold builder
    builder.binary op x y

/-- What a builder makes of trees, one after the other. -/
def foldAll (builder : Builder σ ε α) : List ParseTree → Build σ ε (List α)
  | [] => return []
  | x :: rest => do
    let a ← x.fold builder
    let values ← foldAll builder rest
    return a :: values

/-- The calls of a tree make its value wait. -/
theorem perform_postorder (builder : Builder σ ε α) (x : ParseTree) (rest : List Callback) (waiting : List α) :
    builder.perform (x.postorder ++ rest) waiting =
      x.fold builder >>= fun a => builder.perform rest (a :: waiting) := by
  induction x generalizing rest waiting with
  | number text => simp [postorder, fold, Builder.perform, Builder.answer]
  | name id => simp [postorder, fold, Builder.perform, Builder.answer]
  | operation op l r ihl ihr =>
    simp only [postorder, List.append_assoc, ihl, ihr, fold, bind_assoc]
    simp [Builder.perform, Builder.answer]

theorem perform_flatMap_postorder (builder : Builder σ ε α) (xs : List ParseTree) (waiting : List α) :
    builder.perform (xs.flatMap postorder) waiting =
      (fun values => values.reverse ++ waiting) <$> foldAll builder xs := by
  induction xs generalizing waiting with
  | nil => simp [Builder.perform, foldAll]
  | cons x xs ih =>
    rw [List.flatMap_cons, perform_postorder]
    simp [ih, foldAll]

/-! ## What trees come to -/

/-- The builder of formulas makes the formula of a tree. -/
theorem fold_formulaBuilder (x : ParseTree) : x.fold Formula.builder = pure x.formula := by
  induction x with
  | number text => rfl
  | name id => rfl
  | operation op l r ihl ihr =>
    rw [fold, ihl, ihr]
    rfl

/-- Decomposing while reading and decomposing the formula are the same work. -/
theorem fold_componentsBuilder (x : ParseTree) : x.fold Components.builder = x.formula.decompose := by
  induction x with
  | number text => rfl
  | name id => rfl
  | operation op l r ihl ihr => simp [fold, formula, Formula.decompose, ihl, ihr]

end ParseTree

end ComplexFormula
