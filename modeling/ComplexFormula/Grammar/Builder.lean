import ComplexFormula.Operator
import ComplexFormula.Text.Bytes

/-!
# Builders

Reading a formula calls a builder bottom-up, in one pass from left to right: once for every number and name, and
once for every operator after both of its operands. What comes of it (a tree, table entries, a transcript) is up to
the builder, which has a state and may refuse. A call that is not refused gives a value, and every value can be an
operand: none of them stands for something missing.

Words, literals and symbols are found without a call of the builder. They are operands too if they are values of the
builder themselves. Only symbols are operators, so that a value is one if it is a symbol.
-/

namespace ComplexFormula

/-- A computation that changes a state and may fail. On failure the changes made so far stay. -/
abbrev Build (σ ε α : Type) := ExceptT ε (StateM σ) α

namespace Build

variable {σ ε ε' α β : Type} {work : Build σ ε α} {s s' : σ} {a : α} {e : ε}

/-- What follows a computation that succeeds starts where that one ended. -/
theorem bind_ok (next : α → Build σ ε β) (h : work s = (.ok a, s')) : (work >>= next) s = next a s' := by
  show ExceptT.bindCont next (work s).1 (work s).2 = _
  rw [h]
  rfl

theorem bind_error (next : α → Build σ ε β) (h : work s = (.error e, s')) : (work >>= next) s = (.error e, s') := by
  show ExceptT.bindCont next (work s).1 (work s).2 = _
  rw [h]
  rfl

theorem adapt_ok (f : ε → ε') (h : work s = (.ok a, s')) : ExceptT.adapt f work s = (.ok a, s') := by
  show (Except.mapError f (work s).1, (work s).2) = _
  rw [h]
  rfl

theorem adapt_error (f : ε → ε') (h : work s = (.error e, s')) : ExceptT.adapt f work s = (.error (f e), s') := by
  show (Except.mapError f (work s).1, (work s).2) = _
  rw [h]
  rfl

end Build

structure Builder (σ ε α : Type) where
  number : Bytes → Build σ ε α
  name : Bytes → Build σ ε α
  binary : Operator → α → α → Build σ ε α
  /-- The value that a bare word is, for builders whose values are words. -/
  ofWord : Bytes → Option α := fun _ => none
  ofLiteral : Bytes → Option α := fun _ => none
  ofSymbol : UInt8 → Option α := fun _ => none
  /-- The symbol that a value is, for builders whose values are symbols. -/
  asSymbol : α → Option UInt8 := fun _ => none
  /-- What messages call a value. -/
  kind : α → Bytes

end ComplexFormula
