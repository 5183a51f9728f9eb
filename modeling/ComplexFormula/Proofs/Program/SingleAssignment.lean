import ComplexFormula.Proofs.Program.Emission
import Mathlib

/-!
# Emitted programs are in single-assignment order

The operations that get a temporary are those that are used at least twice (`sharedOperations`), where a use is an
occurrence as an operand anywhere in the table or as a result (`useCount`). The set that emission works with has just
these elements (`elements_shared`).

An expression *refers to* an entry if it is the temporary of the entry, or writes the entry out with expressions that
refer to its operands (`RefersTo`). Emission gives such expressions (`expand_expands`, `refer_refersTo`). Since operands
stand before their operations, an expression that refers to an entry mentions no temporaries of later entries
(`RefersTo.mentionsUpTo`), and since temporaries are numbered in the order of the table, an assignment mentions only
temporaries before its own (`WritesOut.lt_place`).
-/

namespace ComplexFormula

/-- The temporaries that an expression mentions. -/
def Expr.temporaries : Expr → List Int
  | .missing | .arg .. | .const .. => []
  | .temp n => [n]
  | .binary _ l r => l.temporaries ++ r.temporaries

namespace ValueTable

variable {t : ValueTable} {re im : Ref}

/-! ## Counting uses -/

section Uses

/-- How often an entry is used, as an operand in the whole table and as a result. -/
def useCount (t : ValueTable) (re im : Ref) (i : Nat) : Nat :=
  t.values.toList.countP (fun v : Value => v.kind = .binary ∧ v.left = i) +
    t.values.toList.countP (fun v : Value => v.kind = .binary ∧ v.right = i) +
    (if re = i then 1 else 0) + if im = i then 1 else 0

/-- The operations that are used at least twice, in the order of the table. -/
def sharedOperations (t : ValueTable) (re im : Ref) : List Nat :=
  (List.range t.size).filter fun i => t.isBinary i ∧ 2 ≤ t.useCount re im i

theorem size_addUse (counts : Array Nat) (r : Ref) : (addUse counts r).size = counts.size := Array.size_modify

theorem size_addOperandUses (counts : Array Nat) (v : Value) : (addOperandUses counts v).size = counts.size := by
  unfold addOperandUses
  split
  · rw [size_addUse, size_addUse]
  · rfl

theorem getD_addUse {counts : Array Nat} {i : Nat} (hi : i < counts.size) (r : Nat) :
    (addUse counts r)[i]?.getD 0 = counts[i]?.getD 0 + if (r : Ref) = i then 1 else 0 := by
  rw [addUse, Int.toNat_natCast, Array.getElem?_modify, Array.getElem?_eq_getElem hi]
  by_cases hr : r = i
  · simp [hr]
  · simp [hr]

/-- One entry adds its operands, twice if they are the same. -/
theorem getD_addOperandUses {counts : Array Nat} {i : Nat} (hi : i < counts.size) {v : Value}
    (hv : v.kind = .binary → ∃ l r : Nat, v.left = l ∧ v.right = r) :
    (addOperandUses counts v)[i]?.getD 0 = counts[i]?.getD 0 +
      (if v.kind = .binary ∧ v.left = i then 1 else 0) + if v.kind = .binary ∧ v.right = i then 1 else 0 := by
  unfold addOperandUses
  split
  · rename_i hk
    obtain ⟨l, r, hl, hr⟩ := hv hk
    rw [hl, hr, getD_addUse (by rwa [size_addUse]), getD_addUse hi]
    simp only [hk, true_and]
  · rename_i hk
    simp only [hk, false_and, if_false, Nat.add_zero]

/-- Entries one after the other, by induction on those that are left. -/
theorem getD_foldl_addOperandUses {vs : List Value} {counts : Array Nat} {i : Nat} (hi : i < counts.size)
    (hvs : ∀ v ∈ vs, v.kind = .binary → ∃ l r : Nat, v.left = l ∧ v.right = r) :
    (vs.foldl addOperandUses counts).size = counts.size ∧
    (vs.foldl addOperandUses counts)[i]?.getD 0 = counts[i]?.getD 0 +
      vs.countP (fun v : Value => v.kind = .binary ∧ v.left = i) +
      vs.countP (fun v : Value => v.kind = .binary ∧ v.right = i) := by
  induction vs generalizing counts with
  | nil => exact ⟨rfl, rfl⟩
  | cons v vs ih =>
    have hsize := size_addOperandUses counts v
    obtain ⟨hlast, hcount⟩ := ih (by rwa [hsize]) fun w hw => hvs w (List.mem_cons_of_mem _ hw)
    rw [List.foldl_cons]
    refine ⟨by rw [hlast, hsize], ?_⟩
    rw [hcount, getD_addOperandUses hi (hvs v List.mem_cons_self), List.countP_cons, List.countP_cons]
    simp only [decide_eq_true_eq]
    omega

/-- **Counting** arrives at the number of uses. -/
theorem getD_useCounts (h : t.WellFormed) (hre : t.holds re) (him : t.holds im) {i : Nat} (hi : i < t.size) :
    (t.useCounts re im)[i]?.getD 0 = t.useCount re im i := by
  obtain ⟨m, rfl, -⟩ := holds_iff.1 hre
  obtain ⟨n, rfl, -⟩ := holds_iff.1 him
  have hplaces : ∀ v ∈ t.values.toList, v.kind = .binary → ∃ l r : Nat, v.left = l ∧ v.right = r := by
    intro v hv hk
    obtain ⟨j, hj⟩ := List.mem_iff_getElem?.1 hv
    obtain ⟨l, r, hl, hr, -⟩ := h.operands j v (by rwa [← Array.getElem?_toList]) hk
    exact ⟨l, r, hl, hr⟩
  have hstart : i < (Array.replicate t.size 0).size := by rwa [Array.size_replicate]
  obtain ⟨hsize, hcount⟩ := getD_foldl_addOperandUses hstart hplaces
  rw [useCounts, ← Array.foldl_toList, getD_addUse (by rwa [size_addUse, hsize]), getD_addUse (by rwa [hsize]), hcount]
  simp only [useCount, Array.getElem?_replicate, hi, if_true, Option.getD_some, Nat.zero_add]

theorem isBinary_iff {i : Nat} : t.isBinary i ↔ ∃ v, t.values[i]? = some v ∧ v.kind = .binary := by
  simp [isBinary]

theorem mem_sharedOperations {i : Nat} : i ∈ t.sharedOperations re im ↔
    i < t.size ∧ t.isBinary i ∧ 2 ≤ t.useCount re im i := by
  rw [sharedOperations, List.mem_filter, List.mem_range, decide_eq_true_iff]

theorem pairwise_sharedOperations (t : ValueTable) (re im : Ref) : (t.sharedOperations re im).Pairwise (· < ·) :=
  List.pairwise_lt_range.filter _

/-- The set of shared operations has the shared operations as its elements, in their order. -/
theorem elements_shared (h : t.WellFormed) (hre : t.holds re) (him : t.holds im) :
    (t.shared re im).elements = t.sharedOperations re im := by
  refine List.Pairwise.eq_of_mem_iff (t.shared re im).pairwise_elements (t.pairwise_sharedOperations re im) fun i => ?_
  rw [BitSet.mem_elements, contains_shared, mem_sharedOperations]
  refine and_congr_right fun hi => ?_
  rw [getD_useCounts h hre him hi]
  exact and_comm

end Uses

/-! ## References -/

section References

/-- The expression stands for an entry where it is used, the entries in `named` having temporaries. -/
inductive RefersTo (t : ValueTable) (named : List Nat) : Ref → Expr → Prop
  | temporary {i k : Nat} (h : named[k]? = some i) : RefersTo t named i (.temp k)
  | argument {i : Nat} {v : Value} (hv : t.values[i]? = some v) (hk : v.kind = .argument) :
      RefersTo t named i (.arg i v.text)
  | constant {i : Nat} {v : Value} (hv : t.values[i]? = some v) (hk : v.kind = .constant) :
      RefersTo t named i (.const v.text)
  | operation {i : Nat} {v : Value} {a b : Expr} (hi : i ∉ named) (hv : t.values[i]? = some v) (hk : v.kind = .binary)
      (ha : RefersTo t named v.left a) (hb : RefersTo t named v.right b) : RefersTo t named i (.binary v.symbol a b)

/-- The expression writes out an operation: it refers to the operands. -/
def WritesOut (t : ValueTable) (named : List Nat) (v : Value) (e : Expr) : Prop :=
  ∃ a b, e = .binary v.symbol a b ∧ t.RefersTo named v.left a ∧ t.RefersTo named v.right b

variable {shared : BitSet} {named : List Nat}

/-- What expanding an entry gives: a reference if the entry has no temporary, and the operation if it is one. -/
def Expands (t : ValueTable) (named : List Nat) (i : Nat) (e : Expr) : Prop :=
  (i ∉ named → t.RefersTo named i e) ∧
    ∀ v, t.values[i]? = some v → v.kind = .binary → t.WritesOut named v e

theorem refersTo_of_standsFor {i : Nat} {e : Expr} (h : StandsFor shared (t.Expands shared.elements) i e) :
    t.RefersTo shared.elements i e := by
  rcases h with ⟨hc, rfl⟩ | ⟨hc, he⟩
  · exact .temporary (BitSet.getElem?_elements_rank hc)
  · exact he.1 fun hmem => hc (BitSet.mem_elements.1 hmem)

/-- An entry that is no operation only has to be referred to. -/
theorem RefersTo.expands {i : Nat} {v : Value} {e : Expr} (h : t.RefersTo named i e) (hv : t.values[i]? = some v)
    (hk : v.kind ≠ .binary) : t.Expands named i e := by
  refine ⟨fun _ => h, fun w hw hbinary => ?_⟩
  rw [hv] at hw
  cases hw
  exact absurd hbinary hk

/-- **Expanding** an entry writes it out. -/
theorem expand_expands (ht : t.Expandable) (shared : BitSet) {i : Nat} (hi : i < t.size) :
    ∃ e, t.expand shared i = .ok e ∧ t.Expands shared.elements i e := by
  refine expand_induction ht shared (Q := t.Expands shared.elements) ?_ ?_ ?_ hi
  · intro i v hv hk _
    exact (RefersTo.argument hv hk).expands hv (by rw [hk]; decide)
  · intro i v hv hk
    exact (RefersTo.constant hv hk).expands hv (by rw [hk]; decide)
  · intro i v l r a b hv hk hl hr _ _ ha hb
    have ha' : t.RefersTo shared.elements v.left a := hl ▸ refersTo_of_standsFor ha
    have hb' : t.RefersTo shared.elements v.right b := hr ▸ refersTo_of_standsFor hb
    refine ⟨fun hi => .operation hi hv hk ha' hb', fun w hw _ => ?_⟩
    rw [hv] at hw
    cases hw
    exact ⟨a, b, rfl, ha', hb'⟩

theorem refer_refersTo (ht : t.Expandable) (shared : BitSet) {r : Ref} (hr : t.holds r) :
    ∃ e, t.refer shared r = .ok e ∧ t.RefersTo shared.elements r e := by
  obtain ⟨i, rfl, hi⟩ := holds_iff.1 hr
  obtain ⟨e, he, hexpands⟩ := expand_expands ht shared hi
  obtain ⟨e', he', hstands⟩ := refer_of_expand (Q := t.Expands shared.elements) he hexpands
  exact ⟨e', he', refersTo_of_standsFor hstands⟩

/-- The expression mentions only temporaries of entries up to `r`. -/
def MentionsUpTo (named : List Nat) (r : Ref) (e : Expr) : Prop :=
  ∀ n ∈ e.temporaries, ∃ k i : Nat, n = k ∧ named[k]? = some i ∧ (i : Ref) ≤ r

/-- Operands stand before their operation, and so do the temporaries that are mentioned in their place. -/
theorem lt_of_mem_temporaries_binary (h : t.WellFormed) {i : Nat} {v : Value} {a b : Expr} (hv : t.values[i]? = some v)
    (hk : v.kind = .binary) (ha : MentionsUpTo named v.left a) (hb : MentionsUpTo named v.right b) {n : Int}
    (hn : n ∈ (Expr.binary v.symbol a b).temporaries) : ∃ k j : Nat, n = k ∧ named[k]? = some j ∧ j < i := by
  obtain ⟨⟨-, hl⟩, -, hr⟩ := h.operands_lt hv hk
  rcases List.mem_append.1 hn with hn | hn
  · obtain ⟨k, j, hnk, hj, hle⟩ := ha n hn
    exact ⟨k, j, hnk, hj, Int.ofNat_lt.1 (Int.lt_of_le_of_lt hle hl)⟩
  · obtain ⟨k, j, hnk, hj, hle⟩ := hb n hn
    exact ⟨k, j, hnk, hj, Int.ofNat_lt.1 (Int.lt_of_le_of_lt hle hr)⟩

/-- A reference mentions no temporaries of entries behind its own. -/
theorem RefersTo.mentionsUpTo (h : t.WellFormed) {r : Ref} {e : Expr} (he : t.RefersTo named r e) :
    MentionsUpTo named r e := by
  induction he with
  | @temporary i k hk =>
    intro n hn
    exact ⟨k, i, List.mem_singleton.1 hn, hk, Int.le_refl _⟩
  | argument => exact nofun
  | constant => exact nofun
  | operation _ hv hk _ _ iha ihb =>
    intro n hn
    obtain ⟨k, j, hnk, hj, hlt⟩ := lt_of_mem_temporaries_binary h hv hk iha ihb hn
    exact ⟨k, j, hnk, hj, Int.ofNat_le.2 (Nat.le_of_lt hlt)⟩

theorem MentionsUpTo.lt_length {r : Ref} {e : Expr} (h : MentionsUpTo named r e) {n : Int} (hn : n ∈ e.temporaries) :
    0 ≤ n ∧ n < named.length := by
  obtain ⟨k, i, rfl, hk, -⟩ := h n hn
  obtain ⟨hlt, -⟩ := List.getElem?_eq_some_iff.1 hk
  omega

/-- In an increasing list, smaller elements stand at smaller places. -/
theorem lt_of_getElem?_lt {is : List Nat} (h : is.Pairwise (· < ·)) {k m i j : Nat} (hk : is[k]? = some i)
    (hm : is[m]? = some j) (hij : i < j) : k < m := by
  obtain ⟨hkl, rfl⟩ := List.getElem?_eq_some_iff.1 hk
  obtain ⟨hml, rfl⟩ := List.getElem?_eq_some_iff.1 hm
  rcases Nat.lt_trichotomy k m with hlt | rfl | hgt
  · exact hlt
  · omega
  · have := List.pairwise_iff_getElem.1 h m k hml hkl hgt
    omega

/-- Where temporaries are numbered in the order of the table, an operation that is written out mentions only temporaries
before its own. -/
theorem WritesOut.lt_place (h : t.WellFormed) (hsorted : named.Pairwise (· < ·)) {i k : Nat} {v : Value} {e : Expr}
    (hk : named[k]? = some i) (hv : t.values[i]? = some v) (hbinary : v.kind = .binary) (he : t.WritesOut named v e)
    {n : Int} (hn : n ∈ e.temporaries) : 0 ≤ n ∧ n < k := by
  obtain ⟨a, b, rfl, ha, hb⟩ := he
  obtain ⟨m, j, rfl, hm, hji⟩ :=
    lt_of_mem_temporaries_binary h hv hbinary (ha.mentionsUpTo h) (hb.mentionsUpTo h) hn
  have hlt := lt_of_getElem?_lt hsorted hm hk hji
  omega

end References

/-! ## Programs -/

section Programs

variable {shared : BitSet}

/-- The assignments for a list of entries, in its order. -/
theorem exists_assignments {is : List Nat} (h : ∀ i ∈ is, ∃ e, t.expand shared i = .ok e) (first : Nat) :
    ∃ assigns, t.assignments shared first is = .ok assigns ∧ assigns.length = is.length ∧
      ∀ (k : Nat) (a : Assign), assigns[k]? = some a →
        ∃ i, is[k]? = some i ∧ a.temp = (first + k : Nat) ∧ t.expand shared i = .ok a.expr := by
  induction is generalizing first with
  | nil => exact ⟨[], rfl, rfl, nofun⟩
  | cons i is ih =>
    obtain ⟨e, he⟩ := h i List.mem_cons_self
    obtain ⟨assigns, hassigns, hlength, hall⟩ := ih (fun j hj => h j (List.mem_cons_of_mem _ hj)) (first + 1)
    refine ⟨⟨first, e⟩ :: assigns, ?_, by rw [List.length_cons, List.length_cons, hlength], fun k a ha => ?_⟩
    · simp only [assignments, he, hassigns, bind, Except.bind]
    · cases k with
      | zero =>
        cases ha
        exact ⟨i, rfl, rfl, he⟩
      | succ k =>
        obtain ⟨j, hj, htemp, hexpand⟩ := hall k a (by simpa using ha)
        exact ⟨j, by simpa using hj, by rw [htemp]; congr 1; omega, hexpand⟩

/-- **Emitted programs are in single-assignment order.** The shared operations, and only they, get temporaries, in the
order of the table. Every one is assigned once, at its place, from an expression that writes the operation out and
mentions earlier temporaries only. The results mention temporaries that are assigned. -/
theorem toProgram_single_assignment (ht : t.Reachable)
    (hkinds : ∀ v ∈ t.values, v.kind = .argument ∨ v.kind = .constant ∨ v.kind = .binary)
    (hargs : ∀ (i : Nat) (v : Value), t.values[i]? = some v → v.kind = .argument → i < 2) (hre : t.holds re)
    (him : t.holds im) :
    ∃ p, t.toProgram re im = .ok p ∧ p.temps = p.assigns.length ∧
      p.assigns.length = (t.sharedOperations re im).length ∧
      (∀ (k : Nat) (a : Assign), p.assigns[k]? = some a → a.temp = k ∧
        (∃ (i : Nat) (v : Value), (t.sharedOperations re im)[k]? = some i ∧ t.values[i]? = some v ∧
          t.WritesOut (t.sharedOperations re im) v a.expr) ∧
        ∀ n ∈ a.expr.temporaries, 0 ≤ n ∧ n < k) ∧
      t.RefersTo (t.sharedOperations re im) re p.re ∧ t.RefersTo (t.sharedOperations re im) im p.im ∧
      ∀ n ∈ p.re.temporaries ++ p.im.temporaries, 0 ≤ n ∧ n < p.temps := by
  have h := ht.wellFormed
  have hstray := strayArgument?_eq_none_iff.2 hargs
  have hexp := ht.expandable hkinds hstray
  have helements := elements_shared h hre him
  have hexpand : ∀ i ∈ (t.shared re im).elements, ∃ e, t.expand (t.shared re im) i = .ok e := by
    intro i hi
    rw [helements, mem_sharedOperations] at hi
    obtain ⟨e, he, -⟩ := expand_expands hexp (t.shared re im) hi.1
    exact ⟨e, he⟩
  obtain ⟨assigns, hassigns, hlength, hall⟩ := exists_assignments hexpand 0
  obtain ⟨a, ha, hrefa⟩ := refer_refersTo hexp (t.shared re im) hre
  obtain ⟨b, hb, hrefb⟩ := refer_refersTo hexp (t.shared re im) him
  rw [helements] at hlength hrefa hrefb
  have hsize : (t.shared re im).size = assigns.length := by rw [BitSet.size_eq, helements, hlength]
  refine ⟨_, toProgram_eq_ok hre him hstray hassigns ha hb, congrArg _ hsize, hlength, ?_, hrefa, hrefb, ?_⟩
  · intro k c hc
    obtain ⟨i, hi, htemp, hex⟩ := hall k c hc
    rw [helements] at hi
    obtain ⟨hlt, hbinary, -⟩ := mem_sharedOperations.1 (List.mem_of_getElem? hi)
    obtain ⟨v, hv, hk⟩ := isBinary_iff.1 hbinary
    obtain ⟨e, he, -, hwrites⟩ := expand_expands hexp (t.shared re im) hlt
    rw [hex] at he
    cases he
    have hout := hwrites v hv hk
    rw [helements] at hout
    refine ⟨by rw [htemp, Nat.zero_add], ⟨i, v, hi, hv, hout⟩, fun n hn => ?_⟩
    exact hout.lt_place h (t.pairwise_sharedOperations re im) hi hv hk hn
  · intro n hn
    rw [hsize, hlength]
    rcases List.mem_append.1 hn with hn | hn
    · exact (hrefa.mentionsUpTo h).lt_length hn
    · exact (hrefb.mentionsUpTo h).lt_length hn

/-- The square of the real part, its double, and a product of the double that no result needs. -/
def deadProduct : ValueTable := ((new.after (.operate .mul 0 0)).after (.operate .add 2 2)).after (.operate .mul 3 1)

theorem values_deadProduct : deadProduct.values =
    #[.argument (bytes "re"), .argument (bytes "im"), .binary .mul 0 0, .binary .add 2 2, .binary .mul 3 1] := by cbv

/-- The square is shared because it is doubled, and the double because of the product. -/
theorem toProgram_single_assignment_deadProduct :
    deadProduct.sharedOperations 3 1 = [2, 3] ∧
    ∃ p, deadProduct.toProgram 3 1 = .ok p ∧ p.temps = p.assigns.length ∧ p.assigns.length = 2 ∧
      ∀ (k : Nat) (a : Assign), p.assigns[k]? = some a → a.temp = k ∧ ∀ n ∈ a.expr.temporaries, 0 ≤ n ∧ n < k := by
  have hreachable : deadProduct.Reachable := .after (.after (.after .new _) _) _
  have hsize : deadProduct.size = 5 := by rw [size, values_deadProduct]; rfl
  have hshared : deadProduct.sharedOperations 3 1 = [2, 3] := by
    simp only [sharedOperations, useCount, isBinary, hsize, values_deadProduct]
    decide
  have hstray : deadProduct.strayArgument? = none := by
    rw [strayArgument?, values_deadProduct]
    decide
  obtain ⟨p, hp, htemps, hlength, hassigns, -⟩ := toProgram_single_assignment hreachable
    (by rw [values_deadProduct]; decide) (strayArgument?_eq_none_iff.1 hstray) ((holds_natCast _ 3).2 (by omega))
    ((holds_natCast _ 1).2 (by omega))
  refine ⟨hshared, p, hp, htemps, ?_, fun k a ha => ⟨(hassigns k a ha).1, (hassigns k a ha).2.2⟩⟩
  rw [hlength]
  exact congrArg List.length hshared

end Programs

end ValueTable

end ComplexFormula
