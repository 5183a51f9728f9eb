import ComplexFormula.Proofs.BitSet
import Mathlib

/-!
# Sets of positions are finite sets

A set of positions *represents* a finite set of natural numbers if both have the same members (`Represents`). Then the set
answers every question as the finite set does: its elements are the members in increasing order, its size and its ranks
count members, and a visit goes through the members from the lowest on until the step says to stop. How many words there
are does not matter, so neither does the room that a set was made with.

A visit takes the bits of a word off one by one. That this finds them in order is `bitsOf_of_ne_zero`; from there visits are
walks along the list of elements (`visit_eq`).
-/

namespace ComplexFormula.BitSet

/-! ## Walks along a list -/

section Walks

variable {σ : Type} (step : σ → Nat → σ × Bool)

/-- Carry a state along a list for as long as the step says to go on, and tell whether it still does. -/
def walk : List Nat → σ → σ × Bool
  | [], state => (state, true)
  | i :: rest, state =>
    match step state i with
    | (state, true) => walk rest state
    | (state, false) => (state, false)

/-- The state after visiting all of a list. -/
def stateAfter (visited : List Nat) (state : σ) : σ := visited.foldl (fun state i => (step state i).1) state

/-- A walk visits a list up to an element at which the step says to stop, or all of it: the step says to go on at every
visited element but the last one, and if something is left it says to stop at that one. -/
structure Halts (state : σ) (visited rest : List Nat) : Prop where
  goes_on : ∀ before i after, visited = before ++ i :: after → after ≠ [] →
    (step (stateAfter step before state) i).2 = true
  stops : rest ≠ [] → ∃ before i, visited = before ++ [i] ∧ (step (stateAfter step before state) i).2 = false

variable {step} {state state' : σ} {i : Nat} {xs ys : List Nat}

theorem walk_cons_of_true (h : step state i = (state', true)) : walk step (i :: xs) state = walk step xs state' := by
  simp [walk, h]

theorem walk_cons_of_false (h : step state i = (state', false)) : walk step (i :: xs) state = (state', false) := by
  simp [walk, h]

theorem walk_append_of_true (h : walk step xs state = (state', true)) :
    walk step (xs ++ ys) state = walk step ys state' := by
  induction xs generalizing state with
  | nil => cases h; rfl
  | cons i xs ih =>
    rcases hstep : step state i with ⟨next, _ | _⟩
    · simp [walk_cons_of_false hstep] at h
    · rw [walk_cons_of_true hstep] at h
      rw [List.cons_append, walk_cons_of_true hstep, ih h]

theorem walk_append_of_false (h : walk step xs state = (state', false)) :
    walk step (xs ++ ys) state = (state', false) := by
  induction xs generalizing state with
  | nil => cases h
  | cons i xs ih =>
    rcases hstep : step state i with ⟨next, _ | _⟩
    · rw [walk_cons_of_false hstep] at h
      rw [List.cons_append, walk_cons_of_false hstep, h]
    · rw [walk_cons_of_true hstep] at h
      rw [List.cons_append, walk_cons_of_true hstep, ih h]

/-- One more element in front of a walk. -/
theorem Halts.cons (hstep : step state i = (state', true)) {visited rest : List Nat}
    (h : Halts step state' visited rest) : Halts step state (i :: visited) rest := by
  have hstate : ∀ before, stateAfter step (i :: before) state = stateAfter step before state' := by
    intro before
    simp [stateAfter, hstep]
  refine ⟨fun before j after heq hafter => ?_, fun hrest => ?_⟩
  · cases before with
    | nil =>
      obtain ⟨rfl, -⟩ := List.cons.inj heq
      simp [stateAfter, hstep]
    | cons _ before =>
      obtain ⟨rfl, hvisited⟩ := List.cons.inj heq
      rw [hstate]
      exact h.goes_on before j after hvisited hafter
  · obtain ⟨before, j, rfl, hstop⟩ := h.stops hrest
    exact ⟨i :: before, j, rfl, by rwa [hstate]⟩

/-- **Where a walk halts.** -/
theorem walk_halts (step : σ → Nat → σ × Bool) (xs : List Nat) (state : σ) :
    ∃ visited rest, visited ++ rest = xs ∧ (walk step xs state).1 = stateAfter step visited state ∧
      Halts step state visited rest := by
  induction xs generalizing state with
  | nil => exact ⟨[], [], rfl, rfl, by simp, by simp⟩
  | cons i xs ih =>
    rcases hstep : step state i with ⟨next, _ | _⟩
    · refine ⟨[i], xs, rfl, by simp [walk_cons_of_false hstep, stateAfter, hstep], ?_, fun _ => ?_⟩
      · intro before j after heq hafter
        have hlength := congrArg List.length heq
        have hpos := List.length_pos_iff.2 hafter
        simp only [List.length_append, List.length_cons, List.length_nil] at hlength
        omega
      · exact ⟨[], i, rfl, by simp [stateAfter, hstep]⟩
    · obtain ⟨visited, rest, rfl, hstate, hhalts⟩ := ih next
      refine ⟨i :: visited, rest, rfl, ?_, hhalts.cons hstep⟩
      rw [walk_cons_of_true hstep, hstate]
      simp [stateAfter, hstep]

end Walks

/-! ## Visits -/

section Visits

variable {σ : Type} {step : σ → Nat → σ × Bool}

theorem mem_bitsOf {w : UInt64} {j : Nat} : j ∈ bitsOf w ↔ w.toNat.testBit j = true := by
  simp only [bitsOf, List.mem_filter, List.mem_range]
  exact ⟨fun h => h.2, fun h => ⟨lt_of_testBit h, h⟩⟩

theorem pairwise_bitsOf (w : UInt64) : (bitsOf w).Pairwise (· < ·) := List.pairwise_lt_range.filter _

/-- **The lowest bit comes first**, and the others are those of the word without it. -/
theorem bitsOf_of_ne_zero {w : UInt64} (h : w ≠ 0) :
    bitsOf w = lowestBit w :: bitsOf (w &&& ~~~bit (lowestBit w)) := by
  have hlowest := testBit_lowestBit h
  have hcleared : bitsOf (w &&& ~~~bit (lowestBit w)) = (bitsOf w).filter fun j => decide (j ≠ lowestBit w) := by
    rw [bitsOf, bitsOf, List.filter_filter]
    apply List.filter_congr
    intro j _
    rw [testBit_clear w (lt_of_testBit hlowest), Bool.and_comm]
  obtain ⟨j, js, hbits⟩ := List.exists_cons_of_ne_nil (List.ne_nil_of_mem (mem_bitsOf.2 hlowest))
  have hfirst : lowestBit w = j := by
    have hhead : (bitsOf w).head? = (List.range 64).find? w.toNat.testBit := List.head?_filter
    rw [lowestBit, ← hhead, hbits]
    rfl
  have hordered := pairwise_bitsOf w
  rw [hbits, List.pairwise_cons] at hordered
  have hothers : js.filter (fun i => decide (i ≠ j)) = js := by
    rw [List.filter_eq_self]
    intro i hi
    have hlt := hordered.1 i hi
    simp only [decide_eq_true_eq]
    omega
  rw [hcleared, hfirst, hbits, List.filter_cons_of_neg (by simp), hothers]

theorem visitWord_eq (base : Nat) (w : UInt64) (state : σ) :
    visitWord step base w state = walk step ((bitsOf w).map (base + ·)) state := by
  fun_induction visitWord step base w state with
  | case1 state => rfl
  | case2 w state h next hstep ih =>
    rw [ih, bitsOf_of_ne_zero h, List.map_cons, walk_cons_of_true hstep]
  | case3 w state h next hstep =>
    rw [bitsOf_of_ne_zero h, List.map_cons, walk_cons_of_false hstep]

theorem visitWords_eq (k : Nat) (ws : List UInt64) (state : σ) :
    visitWords step (64 * k) ws state =
      (walk step ((ws.zipIdx k).flatMap fun (w, k) => (bitsOf w).map (64 * k + ·)) state).1 := by
  induction ws generalizing k state with
  | nil => rfl
  | cons w ws ih =>
    rw [List.zipIdx_cons, List.flatMap_cons, visitWords, visitWord_eq]
    rcases hwalk : walk step ((bitsOf w).map (64 * k + ·)) state with ⟨next, _ | _⟩
    · rw [walk_append_of_false hwalk]
    · rw [walk_append_of_true hwalk]
      exact ih (k + 1) next

/-- **A visit** walks along the elements. -/
theorem visit_eq (s : BitSet) (state : σ) : s.visit step state = (walk step s.elements state).1 :=
  visitWords_eq 0 s.words.toList state

end Visits

/-! ## Finite sets -/

section FiniteSets

variable {s : BitSet} {S : Finset Nat}

/-- The set has the members of a finite set. -/
def Represents (s : BitSet) (S : Finset Nat) : Prop := ∀ i, s.contains i = decide (i ∈ S)

theorem represents_empty : empty.Represents ∅ := by
  intro i
  simp [contains, word, empty]

theorem represents_withRoom {n : Int} (h : withRoom? n = some s) : s.Represents ∅ := by
  simp only [withRoom?, Option.ite_none_right_eq_some, Option.some.injEq] at h
  intro i
  rw [← h.2, contains_withRoom]
  rfl

theorem Represents.insert (h : s.Represents S) (i : Nat) : (s.insert i).Represents (Insert.insert i S) := by
  intro j
  rw [contains_insert, h j, Bool.or_comm]
  simp [eq_comm]

/-- Adding positions adds them, whatever the order and however often. -/
theorem Represents.foldlM_insert? (h : s.Represents S) (positions : List Nat) :
    ∃ s', positions.foldlM (fun s (i : Nat) => s.insert? i) s = some s' ∧ s'.Represents (S ∪ positions.toFinset) := by
  induction positions generalizing s S with
  | nil => exact ⟨s, rfl, by simpa using h⟩
  | cons i positions ih =>
    obtain ⟨s', hrun, hs'⟩ := ih (h.insert i)
    refine ⟨s', by simpa [insert?] using hrun, ?_⟩
    rwa [List.toFinset_cons, Finset.union_insert, ← Finset.insert_union]

theorem Represents.extend (h : s.Represents S) (n : Nat) : (s.extend n).Represents S := by
  intro i
  rw [contains, word_extend]
  exact h i

/-- The elements are the members in increasing order. -/
theorem Represents.elements_eq (h : s.Represents S) : s.elements = S.sort := by
  refine List.SortedLT.eq_of_mem_iff s.pairwise_elements.sortedLT S.sortedLT_sort fun i => ?_
  rw [mem_elements, h i, decide_eq_true_eq, Finset.mem_sort]

theorem Represents.rank_eq (h : s.Represents S) (i : Nat) : s.rank i = (S.filter (· < i)).card := by
  have hmembers : ((List.range i).filter s.contains).toFinset = S.filter (· < i) := by
    ext j
    simp [h j, and_comm]
  rw [BitSet.rank_eq, List.countP_eq_length_filter, ← hmembers, List.toFinset_card_of_nodup (List.nodup_range.filter _)]

/-- Every question is answered as by a finite set: membership, size and rank are its own, and a visit goes through its
members in increasing order until the step says to stop. The `k`-th member visited has rank `k`. -/
structure AnswersAs (s : BitSet) (S : Finset Nat) : Prop where
  contains : ∀ i : Nat, s.contains? i = some (decide (i ∈ S))
  size : s.size = S.card
  rank : ∀ i : Nat, s.rank? i = some (S.filter (· < i)).card
  visit : ∀ (σ : Type) (step : σ → Nat → σ × Bool) (state : σ), ∃ visited rest,
    visited ++ rest = S.sort ∧ s.visit step state = stateAfter step visited state ∧ Halts step state visited rest ∧
      ∀ k i : Nat, visited[k]? = some i → s.rank? i = some k

theorem Represents.answersAs (h : s.Represents S) : s.AnswersAs S where
  contains i := by simp [BitSet.contains?, h i]
  size := by rw [size_eq, h.elements_eq, Finset.length_sort]
  rank i := by simp [BitSet.rank?, h.rank_eq]
  visit σ step state := by
    obtain ⟨visited, rest, happend, hstate, hhalts⟩ := walk_halts step s.elements state
    refine ⟨visited, rest, by rw [happend, h.elements_eq], (s.visit_eq state).trans hstate, hhalts, fun k i hk => ?_⟩
    have hplace : s.elements[k]? = some i := by
      rw [← happend, List.getElem?_append_left (List.getElem?_eq_some_iff.1 hk).1, hk]
    simp [BitSet.rank?, rank_of_getElem?_elements hplace]

/-- **A set of positions is a finite set.** Start from the set without words or from one that was made with any room, and
add positions in any order and any number of times. All of them are added, and every question is answered as by the finite
set of the positions added, also if the set is given more words. -/
theorem refines_finite_set {start : BitSet} (hstart : start = empty ∨ ∃ n, withRoom? n = some start)
    (positions : List Nat) :
    ∃ s, positions.foldlM (fun s (i : Nat) => s.insert? i) start = some s ∧ s.AnswersAs positions.toFinset ∧
      ∀ n, (s.extend n).AnswersAs positions.toFinset := by
  have hnone : start.Represents ∅ := by
    rcases hstart with rfl | ⟨n, hn⟩
    · exact represents_empty
    · exact represents_withRoom hn
  obtain ⟨s, hrun, hs⟩ := hnone.foldlM_insert? positions
  rw [Finset.empty_union] at hs
  exact ⟨s, hrun, hs.answersAs, fun n => (hs.extend n).answersAs⟩

/-- Positions at both ends of words and behind the room, one of them twice. -/
theorem refines_finite_set_wordEnds :
    withRoom? 64 = some (withRoom 64) ∧
    ∃ s, [200, 63, 64, 0, 63].foldlM (fun s (i : Nat) => s.insert? i) (withRoom 64) = some s ∧
      s.contains? 63 = some true ∧ s.contains? 127 = some false ∧ s.contains? 100000 = some false ∧ s.size = 4 ∧
      s.rank? 63 = some 1 ∧ s.rank? 64 = some 2 ∧ s.rank? 128 = some 3 ∧
      s.visit (fun seen i => (i :: seen, true)) [] = [200, 64, 63, 0] := by
  have hroom : withRoom? 64 = some (withRoom 64) := if_pos (by decide)
  obtain ⟨s, hrun, hs, -⟩ := refines_finite_set (.inr ⟨64, hroom⟩) [200, 63, 64, 0, 63]
  refine ⟨hroom, s, hrun, ?_, ?_, ?_, ?_, ?_, ?_, ?_, ?_⟩
  · exact (hs.contains 63).trans (by decide)
  · exact (hs.contains 127).trans (by decide)
  · exact (hs.contains 100000).trans (by decide)
  · exact hs.size.trans (by decide)
  · exact (hs.rank 63).trans (by decide)
  · exact (hs.rank 64).trans (by decide)
  · exact (hs.rank 128).trans (by decide)
  · obtain ⟨visited, rest, happend, hstate, hhalts, -⟩ := hs.visit (List Nat) (fun seen i => (i :: seen, true)) []
    have hrest : rest = [] := by
      by_contra hleft
      obtain ⟨before, i, -, hstop⟩ := hhalts.stops hleft
      cases hstop
    have hsort : [200, 63, 64, 0, 63].toFinset.sort = [0, 63, 64, 200] :=
      (Finset.sortedLT_sort _).eq_of_mem_iff (List.Pairwise.sortedLT (by decide)) (by simp; omega)
    rw [hrest, List.append_nil, hsort] at happend
    rw [hstate, happend]
    rfl

end FiniteSets

end ComplexFormula.BitSet
