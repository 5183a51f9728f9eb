import ComplexFormula.Proofs.Program.Structure
import Mathlib

/-!
# Inlining duplicates nothing

An operation without a temporary is written out wherever it is used, and so are the operations without a temporary among
its operands. The entries that a program writes out are listed by walking its expressions along the table (`written`).

An operation that has a temporary is written out where it is assigned and nowhere else. One that has none is written out
once for each use by an entry that is itself written out, and once for each result that it is (`count_written`). Entries
are used by later ones only, so going down from the end of the table no entry is written out more often than it is used,
that is, more than once (`nodup_written`).

Each real operation adds at most one entry to a table and a complex one is at most eleven real ones, which bounds the
programs of formulas.
-/

namespace ComplexFormula

/-- The operations of an expression, counted as nodes of its tree. -/
def Expr.operations : Expr → Nat
  | .missing | .arg .. | .const .. | .temp .. => 0
  | .binary _ l r => l.operations + r.operations + 1

def Program.operations (p : Program) : Nat :=
  (p.assigns.map (·.expr.operations)).sum + p.re.operations + p.im.operations

/-- How many entries of a table are operations. -/
def ValueTable.operations (t : ValueTable) : Nat := t.values.toList.countP (·.kind = .binary)

/-- The operators of a formula, counted as nodes of its tree. -/
def Formula.operators : Formula → Nat
  | .hole | .number _ | .name _ => 0
  | .binary _ l r => l.operators + r.operators + 1

namespace ValueTable

variable {t : ValueTable} {re im r : Ref} {named : List Nat} {p : Program} {e : Expr} {j : Nat}

/-! ## The entries that are written out -/

section Written

/-- The entries whose operations an expression writes out, the expression standing for the place `r`. -/
def written (t : ValueTable) : Expr → Ref → List Ref
  | .binary _ a b, r =>
    match t.get? r with
    | some v => r :: (t.written a v.left ++ t.written b v.right)
    | none => []
  | .missing, _ | .arg .., _ | .const .., _ | .temp .., _ => []

/-- The entries that a program writes out, the entries in `named` being assigned and `re` and `im` being its results. -/
def writtenBy (t : ValueTable) (named : List Nat) (re im : Ref) (p : Program) : List Ref :=
  (named.zip p.assigns).flatMap (fun pair => t.written pair.2.expr pair.1) ++ (t.written p.re re ++ t.written p.im im)

theorem written_binary {i : Nat} {v : Value} (hv : t.values[i]? = some v) (b : UInt8) (x y : Expr) :
    t.written (.binary b x y) i = (i : Ref) :: (t.written x v.left ++ t.written y v.right) := by
  simp [written, hv]

/-- Only operations without a temporary are written out where they are used. -/
theorem RefersTo.exists_of_mem_written (he : t.RefersTo named r e) {s : Ref} (hs : s ∈ t.written e r) :
    ∃ i : Nat, s = i ∧ t.isBinary i ∧ i ∉ named := by
  induction he with
  | temporary | argument | constant => cases hs
  | @operation i v a b hi hv hk _ _ iha ihb =>
    rw [written_binary hv] at hs
    rcases List.mem_cons.1 hs with rfl | hs
    · exact ⟨i, rfl, isBinary_iff.2 ⟨v, hv, hk⟩, hi⟩
    · rcases List.mem_append.1 hs with hs | hs
      · exact iha hs
      · exact ihb hs

theorem RefersTo.length_written (he : t.RefersTo named r e) : (t.written e r).length = e.operations := by
  induction he with
  | temporary | argument | constant => rfl
  | operation _ hv _ _ _ iha ihb =>
    rw [written_binary hv, List.length_cons, List.length_append, iha, ihb, Expr.operations]

/-- How often a value has an entry as an operand. -/
def uses (j : Nat) (v : Value) : Nat :=
  (if v.kind = .binary ∧ v.left = j then 1 else 0) + if v.kind = .binary ∧ v.right = j then 1 else 0

/-- How often the entry at a place has the entry `j` as an operand. -/
def usesAt (t : ValueTable) (j : Nat) (s : Ref) : Nat := ((t.get? s).map (uses j)).getD 0

theorem usesAt_natCast {i : Nat} {v : Value} (hv : t.values[i]? = some v) : t.usesAt j i = uses j v := by
  simp [usesAt, hv]

/-- **An entry without a temporary** is written out once if the expression stands for it, and once for each time that
an entry that is written out has it as an operand. -/
theorem RefersTo.count_written (he : t.RefersTo named r e) (hj : t.isBinary j) (hnamed : j ∉ named) :
    (t.written e r).count (j : Ref) = (if r = j then 1 else 0) + ((t.written e r).map (t.usesAt j)).sum := by
  induction he with
  | @temporary i k hk =>
    have hne : (i : Ref) ≠ j := fun h => hnamed (Int.ofNat.inj h ▸ List.mem_of_getElem? hk)
    simp [written, hne]
  | @argument i v hv hk =>
    have hne : (i : Ref) ≠ j := by
      intro h
      obtain rfl := Int.ofNat.inj h
      simp [isBinary, hv, hk] at hj
    simp [written, hne]
  | @constant i v hv hk =>
    have hne : (i : Ref) ≠ j := by
      intro h
      obtain rfl := Int.ofNat.inj h
      simp [isBinary, hv, hk] at hj
    simp [written, hne]
  | @operation i v a b _ hv hk _ _ iha ihb =>
    rw [written_binary hv, List.count_cons, List.count_append, iha, ihb, List.map_cons, List.sum_cons, List.map_append,
      List.sum_append, usesAt_natCast hv, uses]
    simp only [hk, true_and, beq_iff_eq]
    omega

end Written

/-! ## Assignments -/

section Assignments

/-- The operation that an assignment writes out, and what it inlines. -/
theorem WritesOut.exists_inlined {i : Nat} {v : Value} (he : t.WritesOut named v e) (hv : t.values[i]? = some v)
    (hk : v.kind = .binary) :
    ∃ inlined, t.written e i = (i : Ref) :: inlined ∧ inlined.length + 1 = e.operations ∧
      (∀ s ∈ inlined, ∃ i : Nat, s = i ∧ t.isBinary i ∧ i ∉ named) ∧
      (t.isBinary j → j ∉ named → inlined.count (j : Ref) = uses j v + (inlined.map (t.usesAt j)).sum) := by
  obtain ⟨a, b, rfl, ha, hb⟩ := he
  refine ⟨_, written_binary hv _ a b, ?_, fun s hs => ?_, fun hj hnamed => ?_⟩
  · rw [List.length_append, ha.length_written, hb.length_written, Expr.operations]
  · rcases List.mem_append.1 hs with hs | hs
    · exact ha.exists_of_mem_written hs
    · exact hb.exists_of_mem_written hs
  · rw [List.count_append, ha.count_written hj hnamed, hb.count_written hj hnamed, List.map_append, List.sum_append, uses]
    simp only [hk, true_and]
    omega

theorem Emits.assign_of_mem_zip (h : t.Emits named re im p) {i : Nat} {a : Assign} (hmem : (i, a) ∈ named.zip p.assigns) :
    i ∈ named ∧ ∃ v, t.values[i]? = some v ∧ v.kind = .binary ∧ t.WritesOut named v a.expr := by
  obtain ⟨k, hk⟩ := List.mem_iff_getElem?.1 hmem
  obtain ⟨hi, ha⟩ := List.getElem?_zip_eq_some.1 hk
  obtain ⟨-, i', v, hi', hv, hkind, hout⟩ := h.assign k a ha
  obtain rfl := Option.some.inj (hi.symm.trans hi')
  exact ⟨List.mem_of_getElem? hi, v, hv, hkind, hout⟩

theorem Emits.length_writtenBy (h : t.Emits named re im p) : (t.writtenBy named re im p).length = p.operations := by
  have hassigns : ∀ pair ∈ named.zip p.assigns,
      (t.written pair.2.expr pair.1).length = ((fun a : Assign => a.expr.operations) ∘ Prod.snd) pair := by
    rintro ⟨i, a⟩ hmem
    obtain ⟨-, v, hv, hk, hout⟩ := h.assign_of_mem_zip hmem
    obtain ⟨inlined, heq, hlength, -⟩ := hout.exists_inlined (j := 0) hv hk
    rw [heq, List.length_cons, hlength, Function.comp_apply]
  rw [writtenBy, List.length_append, List.length_append, List.length_flatMap, List.map_congr_left hassigns,
    ← List.map_map, List.map_snd_zip h.length.le, h.re.length_written, h.im.length_written, Program.operations,
    Nat.add_assoc]

/-- Everything that is written out is an operation. -/
theorem Emits.exists_of_mem_writtenBy (h : t.Emits named re im p) {s : Ref} (hs : s ∈ t.writtenBy named re im p) :
    ∃ i : Nat, s = i ∧ t.isBinary i := by
  rcases List.mem_append.1 hs with hs | hs
  · obtain ⟨⟨i, a⟩, hmem, hs⟩ := List.mem_flatMap.1 hs
    obtain ⟨-, v, hv, hk, hout⟩ := h.assign_of_mem_zip hmem
    obtain ⟨inlined, heq, -, hinlined, -⟩ := hout.exists_inlined (j := 0) hv hk
    rw [heq] at hs
    rcases List.mem_cons.1 hs with rfl | hs
    · exact ⟨i, rfl, isBinary_iff.2 ⟨v, hv, hk⟩⟩
    · obtain ⟨j, hj, hbinary, -⟩ := hinlined s hs
      exact ⟨j, hj, hbinary⟩
  · have hresult : ∀ {r : Ref} {e : Expr}, t.RefersTo named r e → s ∈ t.written e r → ∃ i : Nat, s = i ∧ t.isBinary i := by
      intro r e he hs
      obtain ⟨j, hj, hbinary, -⟩ := he.exists_of_mem_written hs
      exact ⟨j, hj, hbinary⟩
    rcases List.mem_append.1 hs with hs | hs
    · exact hresult h.re hs
    · exact hresult h.im hs

/-- An operation with a temporary is written out where it is assigned. -/
theorem Emits.count_of_mem (h : t.Emits named re im p) (hj : j ∈ named) :
    (t.writtenBy named re im p).count (j : Ref) = named.count j := by
  have hnone : ∀ {r : Ref} {e : Expr}, t.RefersTo named r e → (t.written e r).count (j : Ref) = 0 := by
    intro r e he
    refine List.count_eq_zero.2 fun hmem => ?_
    obtain ⟨i, hi, -, hnamed⟩ := he.exists_of_mem_written hmem
    exact hnamed (Int.ofNat.inj hi ▸ hj)
  have hassigns : ∀ pair ∈ named.zip p.assigns, (List.count (j : Ref) ∘ fun pair => t.written pair.2.expr pair.1) pair =
      ((fun i : Nat => if i = j then 1 else 0) ∘ Prod.fst) pair := by
    rintro ⟨i, a⟩ hmem
    obtain ⟨-, v, hv, hk, hout⟩ := h.assign_of_mem_zip hmem
    obtain ⟨inlined, heq, -, hinlined, -⟩ := hout.exists_inlined (j := 0) hv hk
    have hzero : inlined.count (j : Ref) = 0 := by
      refine List.count_eq_zero.2 fun hmem => ?_
      obtain ⟨i, hi, -, hnamed⟩ := hinlined _ hmem
      exact hnamed (Int.ofNat.inj hi ▸ hj)
    simp only [Function.comp_apply, heq, List.count_cons, hzero, Nat.zero_add, beq_iff_eq, Nat.cast_inj]
  have hones : ∀ is : List Nat, (is.map fun i => if i = j then 1 else 0).sum = is.count j := by
    intro is
    induction is with
    | nil => rfl
    | cons i is ih => rw [List.map_cons, List.sum_cons, ih, List.count_cons, Nat.add_comm]; simp only [beq_iff_eq]
  rw [writtenBy, List.count_append, List.count_append, hnone h.re, hnone h.im, List.count_flatMap,
    List.map_congr_left hassigns, ← List.map_map, List.map_fst_zip h.length.ge, hones, Nat.add_zero]

/-- **An operation without a temporary** is written out as often as entries that are written out use it, and once more
for each result that it is. -/
theorem Emits.count_of_notMem (h : t.Emits named re im p) (hbinary : t.isBinary j) (hj : j ∉ named) :
    (t.writtenBy named re im p).count (j : Ref) =
      ((t.writtenBy named re im p).map (t.usesAt j)).sum + (if re = j then 1 else 0) + if im = j then 1 else 0 := by
  have hassigns : ∀ pairs : List (Nat × Assign), (∀ pair ∈ pairs, pair ∈ named.zip p.assigns) →
      (pairs.flatMap fun pair => t.written pair.2.expr pair.1).count (j : Ref) =
        ((pairs.flatMap fun pair => t.written pair.2.expr pair.1).map (t.usesAt j)).sum := by
    intro pairs hpairs
    induction pairs with
    | nil => rfl
    | cons pair pairs ih =>
      obtain ⟨i, a⟩ := pair
      obtain ⟨hi, v, hv, hk, hout⟩ := h.assign_of_mem_zip (hpairs _ List.mem_cons_self)
      obtain ⟨inlined, heq, -, -, hcount⟩ := hout.exists_inlined (j := j) hv hk
      have hne : (i : Ref) ≠ j := fun h => hj (Int.ofNat.inj h ▸ hi)
      rw [List.flatMap_cons, List.count_append, List.map_append, List.sum_append, heq,
        ih fun pair hpair => hpairs pair (List.mem_cons_of_mem _ hpair), List.count_cons_of_ne hne, hcount hbinary hj,
        List.map_cons, List.sum_cons, usesAt_natCast hv]
  rw [writtenBy, List.count_append, List.count_append, hassigns _ fun _ h => h, h.re.count_written hbinary hj,
    h.im.count_written hbinary hj, List.map_append, List.map_append, List.sum_append, List.sum_append]
  omega

end Assignments

/-! ## Written out at most once -/

section Once

/-- A sum over places that occur at most once is at most the sum over all places. -/
theorem sum_map_le {places all : List Ref} {f : Ref → Nat}
    (h : ∀ s ∈ places, f s ≠ 0 → s ∈ all ∧ places.count s ≤ 1) : (places.map f).sum ≤ (all.map f).sum := by
  have hkept : (places.map f).sum = ((places.filter fun s => f s ≠ 0).map f).sum := by
    clear h
    induction places with
    | nil => rfl
    | cons s places ih =>
      by_cases hs : f s = 0
      · simp [hs, ih]
      · simp [hs, ih]
  have hnodup : (places.filter fun s => f s ≠ 0).Nodup := by
    rw [List.nodup_iff_count_le_one]
    intro s
    by_cases hs : s ∈ places ∧ f s ≠ 0
    · exact (List.filter_sublist.count_le s).trans (h s hs.1 hs.2).2
    · rw [List.count_eq_zero.2 (by simpa [List.mem_filter] using hs)]
      exact Nat.zero_le 1
  have hsubset : (places.filter fun s => f s ≠ 0) ⊆ all := by
    intro s hs
    obtain ⟨hs, hne⟩ := List.mem_filter.1 hs
    exact (h s hs (by simpa using hne)).1
  obtain ⟨kept, hperm, hsublist⟩ := hnodup.subperm hsubset
  rw [hkept, ← (hperm.map f).sum_eq]
  exact (hsublist.map f).sum_le_sum fun _ _ => Nat.zero_le _

/-- Going through the places of a table is going through its entries. -/
theorem map_range_size {β : Type} {f : Nat → β} {g : Value → β} (h : ∀ i v, t.values[i]? = some v → f i = g v) :
    (List.range t.size).map f = t.values.toList.map g := by
  apply List.ext_getElem
  · simp [size]
  · intro i hi _
    have hlt : i < t.values.size := by simpa [size] using hi
    simp [h i _ (Array.getElem?_eq_getElem hlt)]

theorem sum_uses (vs : List Value) (j : Nat) : (vs.map (uses j)).sum =
    vs.countP (fun v : Value => v.kind = .binary ∧ v.left = j) +
      vs.countP (fun v : Value => v.kind = .binary ∧ v.right = j) := by
  induction vs with
  | nil => rfl
  | cons v vs ih =>
    rw [List.map_cons, List.sum_cons, ih, List.countP_cons, List.countP_cons, uses]
    simp only [decide_eq_true_eq]
    omega

/-- The places of a table. -/
def places (t : ValueTable) : List Ref := (List.range t.size).map (Nat.cast : Nat → Ref)

theorem sum_usesAt (t : ValueTable) (re im : Ref) (j : Nat) :
    (t.places.map (t.usesAt j)).sum + (if re = j then 1 else 0) + (if im = j then 1 else 0) = t.useCount re im j := by
  have hplaces : t.places.map (t.usesAt j) = t.values.toList.map (uses j) := by
    rw [places, List.map_map]
    exact map_range_size fun i v hv => usesAt_natCast hv
  rw [hplaces, sum_uses, useCount]

/-- The entries that have an entry as an operand stand behind it. -/
theorem lt_of_usesAt (h : t.WellFormed) {i : Nat} (hi : t.usesAt j i ≠ 0) : j < i ∧ i < t.size ∧ t.isBinary i := by
  cases hv : t.values[i]? with
  | none => simp [usesAt, hv] at hi
  | some v =>
    rw [usesAt_natCast hv] at hi
    by_cases hk : v.kind = .binary
    · refine ⟨?_, lt_size_of_getElem? hv, isBinary_iff.2 ⟨v, hv, hk⟩⟩
      obtain ⟨⟨-, hl⟩, -, hr⟩ := h.operands_lt hv hk
      by_cases hleft : v.left = j
      · exact Int.ofNat_lt.1 (hleft ▸ hl)
      · by_cases hright : v.right = j
        · exact Int.ofNat_lt.1 (hright ▸ hr)
        · simp [uses, hleft, hright] at hi
    · simp [uses, hk] at hi

/-- No operation is written out twice. The induction goes down from the end of the table: an operation is used by later
ones, which are written out at most once, so it is written out at most as often as it is used. -/
theorem count_writtenBy_le_one (h : t.WellFormed) (hp : t.Emits (t.sharedOperations re im) re im p)
    (hj : t.isBinary j) : (t.writtenBy (t.sharedOperations re im) re im p).count (j : Ref) ≤ 1 := by
  induction hn : t.size - j using Nat.strongRecOn generalizing j with
  | _ n ih =>
    subst hn
    by_cases hshared : j ∈ t.sharedOperations re im
    · rw [hp.count_of_mem hshared]
      exact List.nodup_iff_count_le_one.1 ((t.pairwise_sharedOperations re im).imp Nat.ne_of_lt) j
    · have hlater : ((t.writtenBy (t.sharedOperations re im) re im p).map (t.usesAt j)).sum ≤
          (t.places.map (t.usesAt j)).sum := by
        apply sum_map_le
        intro s hs hne
        obtain ⟨i, rfl, -⟩ := hp.exists_of_mem_writtenBy hs
        obtain ⟨hji, hi, hbinary⟩ := lt_of_usesAt h hne
        exact ⟨List.mem_map_of_mem (List.mem_range.2 hi), ih (t.size - i) (by omega) hbinary rfl⟩
      obtain ⟨v, hv, -⟩ := isBinary_iff.1 hj
      have hfew : t.useCount re im j < 2 := by
        refine Nat.lt_of_not_le fun hmany => hshared ?_
        exact mem_sharedOperations.2 ⟨lt_size_of_getElem? hv, hj, hmany⟩
      rw [hp.count_of_notMem hj hshared]
      rw [← sum_usesAt] at hfew
      omega

theorem nodup_writtenBy (h : t.WellFormed) (hp : t.Emits (t.sharedOperations re im) re im p) :
    (t.writtenBy (t.sharedOperations re im) re im p).Nodup := by
  rw [List.nodup_iff_count_le_one]
  intro s
  by_cases hs : s ∈ t.writtenBy (t.sharedOperations re im) re im p
  · obtain ⟨i, rfl, hbinary⟩ := hp.exists_of_mem_writtenBy hs
    exact count_writtenBy_le_one h hp hbinary
  · rw [List.count_eq_zero.2 hs]
    exact Nat.zero_le 1

/-- A list of different operations is no longer than the table has operations. -/
theorem length_le_operations {ss : List Ref} (hnodup : ss.Nodup) (h : ∀ s ∈ ss, ∃ i : Nat, s = i ∧ t.isBinary i) :
    ss.length ≤ t.operations := by
  have hsubset : ss ⊆ ((List.range t.size).filter t.isBinary).map (Nat.cast : Nat → Ref) := by
    intro s hs
    obtain ⟨i, rfl, hbinary⟩ := h s hs
    obtain ⟨v, hv, -⟩ := isBinary_iff.1 hbinary
    exact List.mem_map_of_mem (List.mem_filter.2 ⟨List.mem_range.2 (lt_size_of_getElem? hv), hbinary⟩)
  have hkinds : (List.range t.size).map t.isBinary = t.values.toList.map fun v => decide (v.kind = .binary) :=
    map_range_size fun i v hv => by simp [isBinary, hv]
  calc ss.length ≤ (((List.range t.size).filter t.isBinary).map (Nat.cast : Nat → Ref)).length :=
        (hnodup.subperm hsubset).length_le
    _ = ((List.range t.size).map t.isBinary).countP id := by
        rw [List.length_map, ← List.countP_eq_length_filter, List.countP_map]
        rfl
    _ = t.operations := by
        rw [hkinds, List.countP_map]
        rfl

end Once

end ValueTable

/-! ## Operations added by a formula -/

section Formulas

open Build

variable {σ ε ε' α β : Type}

/-- The computation adds at most `n` to a measure of the state. -/
def Build.Adds (measure : σ → Nat) (n : Nat) (work : Build σ ε α) : Prop :=
  ∀ s, measure (work s).2 ≤ measure s + n

namespace Build

variable {measure : σ → Nat} {n m : Nat}

theorem adds_pure (a : α) : Adds measure 0 (pure a : Build σ ε α) := fun _ => Nat.le_refl _

theorem adds_throw (e : ε) : Adds measure n (throw e : Build σ ε α) := fun _ => Nat.le_add_right _ _

theorem Adds.bind {work : Build σ ε α} {next : α → Build σ ε β} (hwork : Adds measure n work)
    (hnext : ∀ a, Adds measure m (next a)) : Adds measure (n + m) (work >>= next) := by
  intro s
  have h := hwork s
  rcases hrun : work s with ⟨_ | a, s'⟩
  · rw [Build.bind_error next hrun]
    rw [hrun] at h
    omega
  · rw [Build.bind_ok next hrun]
    rw [hrun] at h
    calc measure (next a s').2 ≤ measure s' + m := hnext a s'
      _ ≤ measure s + n + m := Nat.add_le_add_right h m
      _ = measure s + (n + m) := Nat.add_assoc ..

theorem Adds.adapt {work : Build σ ε α} (hwork : Adds measure n work) (f : ε → ε') :
    Adds measure n (ExceptT.adapt f work) := by
  intro s
  have h := hwork s
  rcases hrun : work s with ⟨_ | a, s'⟩
  · rw [Build.adapt_error f hrun]
    rwa [hrun] at h
  · rw [Build.adapt_ok f hrun]
    rwa [hrun] at h

theorem Adds.mono {work : Build σ ε α} (hwork : Adds measure n work) (h : n ≤ m) : Adds measure m work :=
  fun s => (hwork s).trans (Nat.add_le_add_left h _)

/-- An operation on pairs is at most eleven operations on places. -/
theorem Adds.operation {operate : Operator → Ref → Ref → Build σ ε Ref} (h : ∀ op a b, Adds measure 1 (operate op a b))
    (op : Operator) (a b : Components) : Adds measure 11 (Components.operation operate op a b) := by
  have hstep : ∀ {β : Type} {k : Nat} {op a b} {next : Ref → Build σ ε β}, (∀ r, Adds measure k (next r)) →
      Adds measure (1 + k) (operate op a b >>= next) := fun hnext => (h _ _ _).bind hnext
  cases op with
  | add =>
    refine Adds.mono (n := 1 + (1 + 0)) ?_ (by omega)
    exact hstep fun _ => hstep fun _ => adds_pure _
  | sub =>
    refine Adds.mono (n := 1 + (1 + 0)) ?_ (by omega)
    exact hstep fun _ => hstep fun _ => adds_pure _
  | mul =>
    refine Adds.mono (n := 1 + (1 + (1 + (1 + (1 + (1 + 0)))))) ?_ (by omega)
    exact hstep fun _ => hstep fun _ => hstep fun _ => hstep fun _ => hstep fun _ => hstep fun _ => adds_pure _
  | div =>
    refine Adds.mono (n := 1 + (1 + (1 + (1 + (1 + (1 + (1 + (1 + (1 + (1 + (1 + 0))))))))))) ?_ (by omega)
    exact hstep fun _ => hstep fun _ => hstep fun _ => hstep fun _ => hstep fun _ => hstep fun _ =>
      hstep fun _ => hstep fun _ => hstep fun _ => hstep fun _ => hstep fun _ => adds_pure _

end Build

namespace ValueTable

theorem operations_push (t : ValueTable) (v : Value) :
    (t.push v).operations = t.operations + if v.kind = .binary then 1 else 0 := by
  simp [operations, push, List.countP_cons]

theorem adds_intern (v : Value) : Adds operations (if v.kind = .binary then 1 else 0) (intern v) := by
  intro t
  rcases intern_cases v t with ⟨i, _, h⟩ | ⟨_, _, h⟩ | ⟨_, _, h⟩
  · rw [h]
    exact Nat.le_add_right _ _
  · rw [h]
    exact Nat.le_add_right _ _
  · rw [h, operations_push]

theorem adds_constant (text : Bytes) : Adds operations 0 (constant text) := adds_intern (.constant text)

theorem adds_operate (op : Operator) (a b : Ref) : Adds operations 1 (operate op a b) := by
  intro t
  unfold operate
  split
  · exact Nat.le_add_right _ _
  · rename_i v _
    refine (adds_intern v t).trans (Nat.add_le_add_left ?_ _)
    split <;> omega
  · exact Nat.le_add_right _ _

theorem adds_constants (re im : Bytes) :
    Adds operations 0 (ExceptT.adapt DecompositionError.table do
      let r ← constant re
      let i ← constant im
      return Components.mk r i : Build ValueTable DecompositionError Components) :=
  ((adds_constant re).bind fun _ => (adds_constant im).bind fun _ => adds_pure _).adapt _

theorem adds_name (id : Bytes) : Adds operations 0 (Components.name id) := by
  unfold Components.name
  split
  · exact adds_pure _
  · split
    · exact adds_constants _ _
    · exact adds_throw _

end ValueTable

/-- Each operator of a formula adds at most eleven operations. -/
theorem Formula.adds_decompose (x : Formula) : Adds ValueTable.operations (11 * x.operators) x.decompose := by
  induction x with
  | hole => exact adds_throw _
  | number text => exact ValueTable.adds_constants text [Byte.zero]
  | name id => exact ValueTable.adds_name id
  | binary b l r ihl ihr =>
    have hadds : Adds ValueTable.operations (11 * l.operators + (11 * r.operators + 11)) (decompose (.binary b l r)) := by
      refine ihl.bind fun x => ihr.bind fun y => ?_
      cases Operator.ofSymbol? b with
      | some op => exact (Adds.operation ValueTable.adds_operate _ x y).adapt _
      | none => exact adds_throw _
    refine hadds.mono ?_
    rw [operators]
    omega

/-- Decomposing a formula asks the table for nothing but the calls of its builder. -/
theorem Formula.keeps_reachable_decompose (x : Formula) : Keeps ValueTable.Reachable x.decompose :=
  x.keeps_decompose (fun text _ ht => ht.after (.number text)) (fun id _ ht => ht.after (.name id))
    fun op a b _ ht => ht.after (.combine op a b)

end Formulas

/-- **Inlining duplicates no work.** The operations of an emitted program come from different operations of the table, so
there are at most as many. A formula with `n` operators has a program of at most `11 * n` operations. -/
theorem toProgram_writes_once :
    (∀ (t : ValueTable) (re im : Ref) (p : Program), t.Reachable → t.toProgram re im = .ok p →
      (t.writtenBy (t.sharedOperations re im) re im p).Nodup ∧
      (∀ s ∈ t.writtenBy (t.sharedOperations re im) re im p, ∃ v, t.get? s = some v ∧ v.kind = .binary) ∧
      p.operations = (t.writtenBy (t.sharedOperations re im) re im p).length ∧ p.operations ≤ t.operations) ∧
    ∀ (x : Formula) (p : Program), x.compile = .ok p → p.operations ≤ 11 * x.operators := by
  have hbound : ∀ {t : ValueTable} {re im : Ref} {p : Program}, t.Reachable → t.toProgram re im = .ok p →
      p.operations ≤ t.operations := by
    intro t re im p ht hp
    have hemits := ValueTable.emits_of_toProgram ht.wellFormed hp
    rw [← hemits.length_writtenBy]
    exact ValueTable.length_le_operations (ValueTable.nodup_writtenBy ht.wellFormed hemits)
      fun s hs => hemits.exists_of_mem_writtenBy hs
  refine ⟨fun t re im p ht hp => ?_, fun x p hx => ?_⟩
  · have hemits := ValueTable.emits_of_toProgram ht.wellFormed hp
    refine ⟨ValueTable.nodup_writtenBy ht.wellFormed hemits, fun s hs => ?_, hemits.length_writtenBy.symm, hbound ht hp⟩
    obtain ⟨i, rfl, hbinary⟩ := hemits.exists_of_mem_writtenBy hs
    obtain ⟨v, hv, hk⟩ := ValueTable.isBinary_iff.1 hbinary
    exact ⟨v, by rw [ValueTable.get?_natCast, hv], hk⟩
  · obtain ⟨c, t, hdecompose, hp⟩ := Formula.compile_eq_ok hx
    have hreachable := x.keeps_reachable_decompose .new .new
    have hadds := x.adds_decompose .new
    have hnone : ValueTable.new.operations = 0 := rfl
    rw [hdecompose] at hreachable hadds
    have := hbound hreachable hp
    omega

/-- The variable divided by itself. -/
def selfQuotient : Formula := .binary Operator.div.symbol (.name (bytes "z")) (.name (bytes "z"))

/-- A product that no result needs is not written out, and a quotient writes out the parts of its divisor once. -/
theorem toProgram_writes_once_deadProduct :
    (∃ p, ValueTable.deadProduct.toProgram 3 1 = .ok p ∧ p.operations = 2 ∧ ValueTable.deadProduct.operations = 3 ∧
      (ValueTable.deadProduct.writtenBy (ValueTable.deadProduct.sharedOperations 3 1) 3 1 p).Nodup) ∧
    ∃ p, selfQuotient.compile = .ok p ∧ p.temps = 1 ∧ p.operations ≤ 11 := by
  have hreachable : ValueTable.deadProduct.Reachable := .after (.after (.after .new _) _) _
  have hdead : ∃ p, ValueTable.deadProduct.toProgram 3 1 = .ok p ∧ p.operations = 2 := ⟨_, by cbv, by cbv⟩
  have hquotient : ∃ p, selfQuotient.compile = .ok p ∧ p.temps = 1 := ⟨_, by cbv, by cbv⟩
  obtain ⟨p, hp, hoperations⟩ := hdead
  obtain ⟨q, hq, htemps⟩ := hquotient
  refine ⟨⟨p, hp, hoperations, by cbv, ?_⟩, q, hq, htemps, ?_⟩
  · exact (toProgram_writes_once.1 _ 3 1 p hreachable hp).1
  · exact toProgram_writes_once.2 selfQuotient q hq

end ComplexFormula
