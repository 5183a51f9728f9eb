import ComplexFormula.Text.Bytes

/-!
# Blanks

A set of bytes that may be skipped, kept as a mask of 64 bits: only bytes below 64 can be blanks.
-/

namespace ComplexFormula

structure Blanks where
  mask : UInt64
deriving DecidableEq

namespace Blanks

/-- A byte above 63 cannot be a blank. -/
inductive Refusal where
  | tooHigh

def Refusal.message : Refusal → Bytes
  | .tooHigh => bytes "too high char code"

def empty : Blanks := ⟨0⟩

def insert (blanks : Blanks) (b : UInt8) : Blanks := ⟨blanks.mask ||| (1 <<< b.toUInt64)⟩

def ofBytes (skip : Bytes) : Except Refusal Blanks :=
  if skip.all (· < 64) then .ok (skip.foldl insert empty) else .error .tooHigh

/-- Space, tab, carriage return and line feed. -/
def all : Blanks := [Byte.space, Byte.tab, Byte.carriageReturn, Byte.lineFeed].foldl insert empty

def contains (blanks : Blanks) (b : UInt8) : Bool := b < 64 && blanks.mask &&& (1 <<< b.toUInt64) != 0

/-- The number of blanks at the front of a text. -/
def count (blanks : Blanks) (text : Bytes) : Nat := (text.takeWhile blanks.contains).length

/-- The first position from `start` on that holds no blank. Positions before the text have no answer; from a position
behind its end there is nothing to skip. -/
def skip? (blanks : Blanks) (text : Bytes) (start : Int) : Option Int :=
  if start < 0 then none else some (start + blanks.count (text.drop start.toNat))

end Blanks

end ComplexFormula
