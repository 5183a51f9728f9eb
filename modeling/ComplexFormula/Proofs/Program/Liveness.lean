import ComplexFormula.Program.Listing
import ComplexFormula.Proofs.Program.Structure

/-!
# What results depend on

A temporary is needed if a result mentions it, or an assignment does whose own temporary is needed (`Program.Needs`). The
needed temporaries are found in one pass over the assignments, from the last to the first. One pass is enough since
assignments mention only temporaries before their own (`InOrder`): once the last assignment has been looked at, it can
be left out (`depends_concat_iff`).
-/

namespace ComplexFormula

/-! ## Dependence -/

section Dependence

/-- The `roots` and what they depend on, directly or through a chain of assignments. -/
inductive Depends (assigns : List Assign) (roots : Int → Prop) : Int → Prop
  | root {n : Int} (h : roots n) : Depends assigns roots n
  | operand {a : Assign} {n : Int} (ha : a ∈ assigns) (h : Depends assigns roots a.temp) (hn : n ∈ a.expr.temporaries) :
      Depends assigns roots n

/-- Some result depends on the temporary. -/
def Program.Needs (p : Program) : Int → Prop := Depends p.assigns (· ∈ p.re.temporaries ++ p.im.temporaries)

/-- Every assignment has its place as its temporary and mentions earlier temporaries only. -/
def InOrder (assigns : List Assign) : Prop :=
  ∀ (k : Nat) (a : Assign), assigns[k]? = some a → a.temp = k ∧ ∀ n ∈ a.expr.temporaries, 0 ≤ n ∧ n < k

variable {assigns : List Assign} {roots roots' : Int → Prop} {a : Assign} {n : Int}

theorem depends_congr (h : ∀ n, roots n ↔ roots' n) : Depends assigns roots n ↔ Depends assigns roots' n := by
  rw [funext fun n => propext (h n)]

/-- The first link of a chain: a temporary that no assignment mentions is a root. -/
theorem Depends.root_of_unmentioned (h : Depends assigns roots n) (hn : ∀ a ∈ assigns, n ∉ a.expr.temporaries) :
    roots n := by
  cases h with
  | root h => exact h
  | operand ha _ hmem => exact absurd hmem (hn _ ha)

/-- **An assignment whose temporary nothing mentions** can be left out, if what it mentions becomes a root. -/
theorem depends_concat_iff (hlast : ∀ b ∈ assigns ++ [a], a.temp ∉ b.expr.temporaries) :
    Depends (assigns ++ [a]) roots n ↔
      Depends assigns (fun m => roots m ∨ roots a.temp ∧ m ∈ a.expr.temporaries) n := by
  constructor
  · intro h
    induction h with
    | root h => exact .root (.inl h)
    | @operand b m hb _ hm ih =>
      rcases List.mem_append.1 hb with hb | hb
      · exact .operand hb ih hm
      · obtain rfl := List.mem_singleton.1 hb
        have hroot := ih.root_of_unmentioned fun c hc => hlast c (List.mem_append_left _ hc)
        rcases hroot with hroot | ⟨hroot, -⟩ <;> exact .root (.inr ⟨hroot, hm⟩)
  · intro h
    induction h with
    | root h =>
      rcases h with h | ⟨h, hm⟩
      · exact .root h
      · exact .operand (List.mem_append_right _ (List.mem_singleton.2 rfl)) (.root h) hm
    | operand hb _ hm ih => exact .operand (List.mem_append_left _ hb) ih hm

theorem InOrder.exists_temp (h : InOrder assigns) (ha : a ∈ assigns) : ∃ k : Nat, assigns[k]? = some a ∧ a.temp = k := by
  obtain ⟨k, hk⟩ := List.mem_iff_getElem?.1 ha
  exact ⟨k, hk, (h k a hk).1⟩

theorem InOrder.of_append {later : List Assign} (h : InOrder (assigns ++ later)) : InOrder assigns := by
  intro k b hb
  obtain ⟨hk, -⟩ := List.getElem?_eq_some_iff.1 hb
  exact h k b (by rwa [List.getElem?_append_left hk])

theorem InOrder.temp_unmentioned (h : InOrder (assigns ++ [a])) : ∀ b ∈ assigns ++ [a], a.temp ∉ b.expr.temporaries := by
  intro b hb hmem
  obtain ⟨k, hk⟩ := List.mem_iff_getElem?.1 hb
  obtain ⟨hlt, -⟩ := List.getElem?_eq_some_iff.1 hk
  obtain ⟨htemp, -⟩ := h assigns.length a List.getElem?_concat_length
  obtain ⟨-, hearlier⟩ := (h k b hk).2 _ hmem
  rw [List.length_append, List.length_singleton] at hlt
  omega

end Dependence

/-! ## The backward pass -/

section Pass

variable {s s' : BitSet} {n : Int}

/-- Whether a set has an integer as its element. -/
def BitSet.Has (s : BitSet) (n : Int) : Prop := 0 ≤ n ∧ s.contains n.toNat

theorem BitSet.has_natCast {k : Nat} : s.Has k ↔ s.contains k := by
  rw [Has, Int.toNat_natCast]
  exact and_iff_right (Int.natCast_nonneg k)

theorem Expr.has_collect {e : Expr} (h : e.collect s = some s') : s'.Has n ↔ s.Has n ∨ n ∈ e.temporaries := by
  induction e generalizing s s' with
  | missing | arg | const =>
    cases h
    exact (or_iff_left List.not_mem_nil).symm
  | temp m =>
    simp only [collect, BitSet.insert?, Option.ite_none_right_eq_some, Option.some.injEq] at h
    obtain ⟨hm, rfl⟩ := h
    simp only [BitSet.Has, BitSet.contains_insert, Bool.or_eq_true, decide_eq_true_eq, temporaries, List.mem_singleton]
    constructor
    · rintro ⟨hn, hin | heq⟩
      · exact .inl ⟨hn, hin⟩
      · exact .inr (by omega)
    · rintro (⟨hn, hin⟩ | rfl)
      · exact ⟨hn, .inl hin⟩
      · exact ⟨hm, .inr rfl⟩
  | binary b l r ihl ihr =>
    simp only [collect, Option.bind_eq_bind, Option.bind_eq_some_iff] at h
    obtain ⟨s₁, hl, hr⟩ := h
    rw [ihr hr, ihl hl, temporaries, List.mem_append, or_assoc]

theorem Assign.has_collect {a : Assign} (h : a.collect s = some s') :
    s'.Has n ↔ s.Has n ∨ s.Has a.temp ∧ n ∈ a.expr.temporaries := by
  simp only [collect, Option.bind_eq_bind, Option.bind_eq_some_iff] at h
  obtain ⟨found, hfound, h⟩ := h
  have hhas : s.Has a.temp ↔ found = true := by
    unfold BitSet.contains? at hfound
    split at hfound
    · rename_i htemp
      rw [BitSet.Has, ← Option.some.inj hfound]
      exact and_iff_right htemp
    · rename_i htemp
      split at hfound
      · cases hfound
      · cases hfound
        exact iff_of_false (fun hhas => htemp hhas.1) Bool.false_ne_true
  rw [hhas]
  cases found with
  | true => rw [Expr.has_collect h, eq_self, true_and]
  | false =>
    cases h
    simp

/-- **The pass finds what depends on the set it starts from**, by induction on the assignments from the first on. -/
theorem has_foldlM_collect {assigns : List Assign} (horder : InOrder assigns)
    (h : assigns.reverse.foldlM Assign.collect s = some s') : s'.Has n ↔ Depends assigns s.Has n := by
  induction assigns using List.reverseRecOn generalizing s with
  | nil =>
    cases h
    refine ⟨.root, fun hdepends => hdepends.root_of_unmentioned nofun⟩
  | append_singleton assigns a ih =>
    rw [List.reverse_append, List.reverse_singleton, List.singleton_append, List.foldlM_cons, Option.bind_eq_bind,
      Option.bind_eq_some_iff] at h
    obtain ⟨s₁, hcollect, hrest⟩ := h
    rw [ih horder.of_append hrest, depends_concat_iff horder.temp_unmentioned]
    exact depends_congr fun m => Assign.has_collect hcollect

end Pass

/-! ## Programs -/

section Programs

variable {p : Program} {needed : BitSet} {n : Int}

theorem Program.not_has_room {s : BitSet} (h : p.room? = some s) : ¬s.Has n := by
  have hroom : s = .withRoom p.temps := by
    unfold room? BitSet.withRoom? at h
    split_ifs at h <;> exact (Option.some.inj h).symm
  rw [hroom, BitSet.Has, BitSet.contains_withRoom]
  exact fun hhas => Bool.false_ne_true hhas.2

/-- **The temporaries that are found** are those that a result depends on. -/
theorem Program.has_needed_iff (horder : InOrder p.assigns) (h : p.needed? = some needed) :
    needed.Has n ↔ p.Needs n := by
  simp only [needed?, Option.bind_eq_bind, Option.bind_eq_some_iff] at h
  obtain ⟨s₀, hroom, s₁, hre, s₂, him, hpass⟩ := h
  rw [has_foldlM_collect horder hpass]
  refine depends_congr fun m => ?_
  rw [Expr.has_collect him, Expr.has_collect hre, or_iff_right (Program.not_has_room hroom), List.mem_append]

namespace ValueTable

variable {t : ValueTable} {named : List Nat} {re im : Ref}

theorem Emits.inOrder (h : t.WellFormed) (hsorted : named.Pairwise (· < ·)) (hemits : t.Emits named re im p) :
    InOrder p.assigns := by
  intro k a ha
  obtain ⟨htemp, i, v, hi, hv, hbinary, hout⟩ := hemits.assign k a ha
  exact ⟨htemp, fun n hn => hout.lt_place h hsorted hi hv hbinary hn⟩

/-- Results mention temporaries that are assigned. -/
theorem Emits.lt_of_mem_results (h : t.WellFormed) (hemits : t.Emits named re im p)
    (hn : n ∈ p.re.temporaries ++ p.im.temporaries) : 0 ≤ n ∧ n < p.assigns.length := by
  rw [hemits.length]
  rcases List.mem_append.1 hn with hn | hn
  · exact (hemits.re.mentionsUpTo h).lt_length hn
  · exact (hemits.im.mentionsUpTo h).lt_length hn

end ValueTable

end Programs

end ComplexFormula
