import ComplexFormula.BitSet

/-!
# Sets of positions as sets

Every question that a set answers is answered by membership alone (`contains`), however many words there are:

* `contains_withRoom`, `contains_insert`: what making a set and adding a position do to membership;
* `elements_eq`: the elements are the members among the positions that the words cover, in increasing order;
* `size_eq`, `rank_eq`: counting is counting elements;
* `rank_of_getElem?_elements`: the element at place `k` of the list has rank `k`.
-/

namespace ComplexFormula.BitSet

/-! ## Words -/

section Words

theorem testBit_or_bit (w : UInt64) {j : Nat} (hj : j < 64) (m : Nat) :
    (w ||| bit j).toNat.testBit m = (w.toNat.testBit m || decide (j = m)) := by
  rw [UInt64.toNat_or, Nat.testBit_or, toNat_bit hj, Nat.one_shiftLeft, Nat.testBit_two_pow]

/-- The mask below `j` keeps exactly the bits below `j`. -/
theorem testBit_mask (w : UInt64) {j : Nat} (hj : j < 64) (m : Nat) :
    (w &&& (bit j - 1)).toNat.testBit m = (w.toNat.testBit m && decide (m < j)) := by
  have hpos : 1 ≤ bit j := by
    rw [UInt64.le_iff_toNat_le, toNat_bit hj, UInt64.toNat_one, Nat.one_shiftLeft]
    exact Nat.two_pow_pos j
  have hmask : (bit j - 1).toNat = 2 ^ j - 1 := by
    rw [UInt64.toNat_sub_of_le _ _ hpos, toNat_bit hj, UInt64.toNat_one, Nat.one_shiftLeft]
  rw [UInt64.toNat_and, Nat.testBit_and, hmask, Nat.testBit_two_pow_sub_one]

theorem popCount_eq (w : UInt64) : popCount w = (List.range 64).countP w.toNat.testBit := by
  rw [popCount, bitsOf, List.countP_eq_length_filter]

/-- Masking a word leaves the bits below the mask's end. -/
theorem popCount_mask (w : UInt64) {j : Nat} (hj : j < 64) :
    popCount (w &&& (bit j - 1)) = (List.range j).countP w.toNat.testBit := by
  have hsplit : List.range 64 = List.range j ++ (List.range (64 - j)).map (j + ·) := by
    rw [← List.range_add]
    congr 1
    omega
  rw [popCount_eq, hsplit, List.countP_append, List.countP_map]
  have hlow : (List.range j).countP (w &&& (bit j - 1)).toNat.testBit = (List.range j).countP w.toNat.testBit := by
    apply List.countP_congr
    intro m hm
    rw [testBit_mask w hj]
    simp [List.mem_range.1 hm]
  have hhigh : (List.range (64 - j)).countP ((w &&& (bit j - 1)).toNat.testBit ∘ (j + ·)) = 0 := by
    rw [List.countP_eq_zero]
    intro m _
    rw [Function.comp_apply, testBit_mask w hj]
    simp
  rw [hlow, hhigh, Nat.add_zero]

theorem popCount_zero : popCount 0 = 0 := by decide

theorem popCounts_concat (ws : List UInt64) (w : UInt64) : popCounts (ws ++ [w]) = popCounts ws + popCount w := by
  rw [popCounts, popCounts, List.foldl_append, List.foldl_cons, List.foldl_nil]

end Words

/-! ## Membership -/

section Membership

theorem contains_eq (s : BitSet) (k : Nat) {j : Nat} (hj : j < 64) :
    s.contains (64 * k + j) = (s.word k).toNat.testBit j := by
  have hdiv : (64 * k + j) / 64 = k := by omega
  have hmod : (64 * k + j) % 64 = j := by omega
  rw [contains, hdiv, hmod]

/-- Words behind the end hold nothing. -/
theorem word_of_size_le {s : BitSet} {k : Nat} (h : s.words.size ≤ k) : s.word k = 0 := by
  simp [word, Array.getElem?_eq_none h]

theorem lt_of_contains {s : BitSet} {i : Nat} (h : s.contains i) : i < 64 * s.words.size := by
  rcases Nat.lt_or_ge (i / 64) s.words.size with hlt | hge
  · omega
  · simp [contains, word_of_size_le hge] at h

theorem word_extend (s : BitSet) (n k : Nat) : (s.extend n).word k = s.word k := by
  unfold word extend
  rw [Array.getElem?_append]
  split
  · rfl
  · rename_i hk
    have hnone : s.words[k]? = none := Array.getElem?_eq_none (by omega)
    rw [hnone, Array.getElem?_replicate]
    split <;> rfl

theorem word_insert (s : BitSet) (i k : Nat) :
    (s.insert i).word k = if i / 64 = k then s.word k ||| bit (i % 64) else s.word k := by
  have hsize : i / 64 < (s.extend (i / 64 + 1)).words.size := by
    simp only [extend, Array.size_append, Array.size_replicate]
    omega
  rw [← word_extend s (i / 64 + 1) k]
  simp only [word, insert, Array.getElem?_modify]
  split
  · rename_i hik
    subst hik
    rw [Array.getElem?_eq_getElem hsize]
    rfl
  · rfl

@[simp]
theorem contains_withRoom (n : Int) (i : Nat) : (withRoom n).contains i = false := by
  have hword : (withRoom n).word (i / 64) = 0 := by
    rw [word, withRoom, Array.getElem?_replicate]
    split <;> rfl
  simp [contains, hword]

@[simp]
theorem contains_insert (s : BitSet) (i j : Nat) : (s.insert i).contains j = (s.contains j || decide (i = j)) := by
  rw [contains, word_insert, contains]
  split
  · rename_i hword
    rw [testBit_or_bit _ (Nat.mod_lt _ (by decide))]
    have hmod : (i % 64 = j % 64) ↔ i = j := by omega
    simp [hmod]
  · rename_i hword
    have hne : i ≠ j := fun h => hword (by rw [h])
    simp [hne]

theorem contains_foldl_insert (is : List Nat) (s : BitSet) (j : Nat) :
    (is.foldl insert s).contains j = (s.contains j || decide (j ∈ is)) := by
  induction is generalizing s with
  | nil => simp
  | cons i is ih =>
    rw [List.foldl_cons, ih, contains_insert]
    have hsymm : i = j ↔ j = i := eq_comm
    simp [hsymm, Bool.or_assoc]

end Membership

/-! ## Elements -/

section Elements

/-- Positions in order, word by word. -/
theorem range_mul (n : Nat) :
    List.range (64 * n) = (List.range n).flatMap fun k => (List.range 64).map (64 * k + ·) := by
  induction n with
  | zero => rfl
  | succ n ih =>
    rw [Nat.mul_succ, List.range_add, ih, List.range_succ (n := n), List.flatMap_append]
    simp

/-- The members in the word `k`. -/
theorem filter_contains_word (s : BitSet) (k : Nat) :
    ((List.range 64).map (64 * k + ·)).filter s.contains = (bitsOf (s.word k)).map (64 * k + ·) := by
  rw [List.filter_map, bitsOf]
  congr 1
  apply List.filter_congr
  intro j hj
  exact s.contains_eq k (List.mem_range.1 hj)

theorem zipIdx_words (s : BitSet) :
    s.words.toList.zipIdx = (List.range s.words.size).map fun k => (s.word k, k) := by
  apply List.ext_getElem
  · simp
  · intro k h₁ h₂
    have hk : k < s.words.size := by simpa using h₁
    simp [word, Array.getElem?_eq_getElem hk]

/-- **The elements** are the members, in increasing order. -/
theorem elements_eq (s : BitSet) : s.elements = (List.range (64 * s.words.size)).filter s.contains := by
  rw [elements, zipIdx_words, List.flatMap_map, range_mul, List.filter_flatMap]
  congr 1
  funext k
  exact (s.filter_contains_word k).symm

theorem mem_elements {s : BitSet} {i : Nat} : i ∈ s.elements ↔ s.contains i := by
  rw [elements_eq, List.mem_filter, List.mem_range]
  exact ⟨fun h => h.2, fun h => ⟨lt_of_contains h, h⟩⟩

theorem pairwise_elements (s : BitSet) : s.elements.Pairwise (· < ·) := by
  rw [elements_eq]
  exact List.pairwise_lt_range.filter _

/-- The members in the first `n` words, counted word by word. -/
theorem popCounts_take (s : BitSet) (n : Nat) :
    popCounts (s.words.toList.take n) = (List.range (64 * n)).countP s.contains := by
  induction n with
  | zero => rfl
  | succ n ih =>
    have hword : popCounts (s.words.toList.take (n + 1)) =
        popCounts (s.words.toList.take n) + popCount (s.word n) := by
      rw [List.take_add_one, word, ← Array.getElem?_toList]
      cases s.words.toList[n]? with
      | none => rw [Option.toList_none, List.append_nil, Option.getD_none, popCount_zero, Nat.add_zero]
      | some w => rw [Option.toList_some, popCounts_concat, Option.getD_some]
    rw [hword, ih, Nat.mul_succ, List.range_add, List.countP_append, List.countP_eq_length_filter (l := List.map _ _),
      filter_contains_word, List.length_map, popCount]

theorem size_eq (s : BitSet) : s.size = s.elements.length := by
  rw [elements_eq, ← List.countP_eq_length_filter, ← popCounts_take, size, ← Array.length_toList, List.take_length]

/-- **Rank** counts the members below a position. -/
theorem rank_eq (s : BitSet) (i : Nat) : s.rank i = (List.range i).countP s.contains := by
  have hj : i % 64 < 64 := Nat.mod_lt _ (by decide)
  have hsplit : List.range i = List.range (64 * (i / 64)) ++ (List.range (i % 64)).map (64 * (i / 64) + ·) := by
    rw [← List.range_add, Nat.div_add_mod]
  have hlast : (List.range (i % 64)).countP (s.contains ∘ (64 * (i / 64) + ·)) =
      (List.range (i % 64)).countP (s.word (i / 64)).toNat.testBit := by
    apply List.countP_congr
    intro j hmem
    have hlt := List.mem_range.1 hmem
    simp [contains_eq s (i / 64) (by omega : j < 64)]
  rw [rank, popCounts_take, popCount_mask _ hj, hsplit, List.countP_append, List.countP_map, hlast]

/-- Counting up to the member at place `k` of a filtered range counts `k` members. -/
theorem countP_range_of_getElem?_filter (p : Nat → Bool) {n k i : Nat}
    (h : ((List.range n).filter p)[k]? = some i) : (List.range i).countP p = k := by
  induction n with
  | zero => simp at h
  | succ n ih =>
    rw [List.range_succ, List.filter_append, List.getElem?_append] at h
    split at h
    · exact ih h
    · rename_i hk
      rw [← List.countP_eq_length_filter] at hk h
      -- only the last position can be behind the members before it
      cases hp : p n with
      | false => simp [hp] at h
      | true =>
        simp only [hp, List.filter_cons_of_pos, List.filter_nil, List.getElem?_singleton] at h
        split at h
        · cases h
          omega
        · cases h

theorem rank_of_getElem?_elements {s : BitSet} {k i : Nat} (h : s.elements[k]? = some i) : s.rank i = k := by
  rw [elements_eq] at h
  rw [rank_eq, countP_range_of_getElem?_filter s.contains h]

/-- A member has its rank as its place. -/
theorem getElem?_elements_rank {s : BitSet} {i : Nat} (h : s.contains i) : s.elements[s.rank i]? = some i := by
  obtain ⟨k, hk⟩ := List.mem_iff_getElem?.1 (mem_elements.2 h)
  rw [rank_of_getElem?_elements hk, hk]

end Elements

end ComplexFormula.BitSet
