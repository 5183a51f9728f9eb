import ComplexFormula.Text.Bytes

/-!
# Sets of positions

A set of natural numbers as an array of words of 64 bits. The array grows when a position behind its end is added;
the empty set may have no words at all. How many words there are matters to no question that a set answers about
positions from 0 on.

Negative positions are never in a set. They fall into word 0 down to -63 and before the first word below that, so
asking about them has no answer, except that a set without words has nothing in word 0 to look at.
-/

namespace ComplexFormula

structure BitSet where
  words : Array UInt64

namespace BitSet

/-! ## Words -/

/-- The bits of a word, from the lowest on. -/
def bitsOf (w : UInt64) : List Nat := (List.range 64).filter w.toNat.testBit

def popCount (w : UInt64) : Nat := (bitsOf w).length

/-- The bits of a list of words, counted. -/
def popCounts (ws : List UInt64) : Nat := ws.foldl (fun n w => n + popCount w) 0

def bit (j : Nat) : UInt64 := 1 <<< UInt64.ofNat j

/-- The place of the lowest bit of a word, 64 if it has none. -/
def lowestBit (w : UInt64) : Nat := ((List.range 64).find? w.toNat.testBit).getD 64

theorem toNat_bit {j : Nat} (hj : j < 64) : (bit j).toNat = 1 <<< j := by
  have hpow : 2 ^ j < 2 ^ 64 := Nat.pow_lt_pow_right (by decide) hj
  have hmod : (UInt64.ofNat j).toNat % 64 = j := by
    rw [UInt64.toNat_ofNat']
    omega
  rw [bit, UInt64.toNat_shiftLeft, hmod, UInt64.toNat_one, Nat.one_shiftLeft, Nat.mod_eq_of_lt hpow]

theorem lt_of_testBit {w : UInt64} {j : Nat} (h : w.toNat.testBit j = true) : j < 64 := by
  refine Nat.lt_of_not_le fun hle => ?_
  rw [Nat.testBit_lt_two_pow (Nat.lt_of_lt_of_le w.toNat_lt (Nat.pow_le_pow_right (by decide) hle))] at h
  cases h

/-- A word other than zero has a lowest bit. -/
theorem testBit_lowestBit {w : UInt64} (h : w ≠ 0) : w.toNat.testBit (lowestBit w) = true := by
  rw [lowestBit]
  cases hfind : (List.range 64).find? w.toNat.testBit with
  | some j => exact List.find?_some hfind
  | none =>
    refine absurd (UInt64.toNat_inj.1 (Nat.eq_of_testBit_eq fun j => ?_)) h
    rw [UInt64.toNat_zero, Nat.zero_testBit, Bool.eq_false_iff]
    exact fun hj => List.find?_eq_none.1 hfind j (List.mem_range.2 (lt_of_testBit hj)) hj

/-- Taking off a bit leaves the other bits. -/
theorem testBit_clear (w : UInt64) {j : Nat} (hj : j < 64) (m : Nat) :
    (w &&& ~~~bit j).toNat.testBit m = (w.toNat.testBit m && decide (m ≠ j)) := by
  have hcomplement : (~~~bit j).toNat = 2 ^ 64 - ((bit j).toNat + 1) := by
    rw [UInt64.toNat_not, UInt64.size]
    omega
  rw [UInt64.toNat_and, Nat.testBit_and, hcomplement, Nat.testBit_two_pow_sub_succ (bit j).toNat_lt, toNat_bit hj,
    Nat.one_shiftLeft, Nat.testBit_two_pow]
  cases hm : w.toNat.testBit m with
  | false => rfl
  | true =>
    have hlt := lt_of_testBit hm
    simp [hlt, eq_comm]

theorem toNat_clear_lt {w : UInt64} {j : Nat} (h : w.toNat.testBit j = true) : (w &&& ~~~bit j).toNat < w.toNat := by
  refine Nat.lt_of_le_of_ne ?_ fun heq => ?_
  · rw [UInt64.toNat_and]
    exact Nat.and_le_left
  · have hcleared := testBit_clear w (lt_of_testBit h) j
    rw [heq, h] at hcleared
    simp at hcleared

/-! ## Sets -/

/-- The set without words. -/
def empty : BitSet := ⟨#[]⟩

/-- The number of words that `n` positions take, at least one. The sum is one of 64-bit integers. -/
def wordsFor (n : Int) : Nat := max 1 ((n + 63).bmod (1 <<< 64) |>.tdiv 64).toNat

/-- The empty set with room for `n` positions. -/
def withRoom (n : Int) : BitSet := ⟨Array.replicate (wordsFor n) 0⟩

/-- No set starts with more than `2^45` words. -/
def withRoom? (n : Int) : Option BitSet := if wordsFor n ≤ 1 <<< 45 then some (withRoom n) else none

def word (s : BitSet) (k : Nat) : UInt64 := s.words[k]?.getD 0

/-- The same set with at least `n` words. -/
def extend (s : BitSet) (n : Nat) : BitSet := ⟨s.words ++ Array.replicate (n - s.words.size) 0⟩

def insert (s : BitSet) (i : Nat) : BitSet := ⟨(s.extend (i / 64 + 1)).words.modify (i / 64) (· ||| bit (i % 64))⟩

def contains (s : BitSet) (i : Nat) : Bool := (s.word (i / 64)).toNat.testBit (i % 64)

/-- The number of elements. -/
def size (s : BitSet) : Nat := popCounts s.words.toList

/-- The number of elements below a position. -/
def rank (s : BitSet) (i : Nat) : Nat :=
  popCounts (s.words.toList.take (i / 64)) + popCount (s.word (i / 64) &&& (bit (i % 64) - 1))

/-- The elements in increasing order. -/
def elements (s : BitSet) : List Nat :=
  s.words.toList.zipIdx.flatMap fun (w, k) => (bitsOf w).map (64 * k + ·)

/-- Visit the bits of a word for as long as the step says to go on, and tell whether it still does. The lowest bit is
visited first and taken off. -/
def visitWord {σ : Type} (step : σ → Nat → σ × Bool) (base : Nat) (w : UInt64) (state : σ) : σ × Bool :=
  if _h : w = 0 then (state, true)
  else
    match step state (base + lowestBit w) with
    | (state, true) => visitWord step base (w &&& ~~~bit (lowestBit w)) state
    | (state, false) => (state, false)
termination_by w.toNat
decreasing_by exact toNat_clear_lt (testBit_lowestBit ‹_›)

/-- Visit the bits of words one after the other, the first of which holds the positions from `base` on. -/
def visitWords {σ : Type} (step : σ → Nat → σ × Bool) : (base : Nat) → List UInt64 → σ → σ
  | _, [], state => state
  | base, w :: rest, state =>
    match visitWord step base w state with
    | (state, true) => visitWords step (base + 64) rest state
    | (state, false) => state

/-- Visit the elements in increasing order for as long as the step says to go on. -/
def visit {σ : Type} (s : BitSet) (step : σ → Nat → σ × Bool) (state : σ) : σ := visitWords step 0 s.words.toList state

/-- The elements in order, up to the given number of them; zero means all. -/
def firstElements (s : BitSet) (limit : Int) : List Nat :=
  (s.visit (fun seen i => (seen.push i, (seen.size + 1 : Int) ≠ limit)) #[]).toList

/-! ## Any integer as a position -/

/-- Whether a negative position falls into a word that the set has. -/
def hits (s : BitSet) (i : Int) : Bool := i ≤ -64 || s.words.size != 0

def contains? (s : BitSet) (i : Int) : Option Bool :=
  if 0 ≤ i then some (s.contains i.toNat) else if s.hits i then none else some false

def rank? (s : BitSet) (i : Int) : Option Nat :=
  if 0 ≤ i then some (s.rank i.toNat) else if s.hits i then none else some 0

def insert? (s : BitSet) (i : Int) : Option BitSet := if 0 ≤ i then some (s.insert i.toNat) else none

/-- The set after adding a position, or after failing to: word 0 is there by then if the position falls into it. -/
def afterInsert (s : BitSet) (i : Int) : BitSet :=
  if 0 ≤ i then s.insert i.toNat else if i ≤ -64 then s else s.extend 1

end BitSet

end ComplexFormula
