import ComplexFormula.Proofs.ValueTable.Calls

/-!
# Sharing

Entries never change and never move (`Within`), and all that an operation looks at are entries. So an operation that was
answered once takes the same rule on every later table, and the value that it interned then is found now: it gives the same
answer and adds nothing. Work that is put together from such operations has the same property (`Repeatable`), and
decomposing a formula is such work. This is how common subexpressions come to be shared, however far apart they are.
-/

namespace ComplexFormula

namespace ValueTable

open Build

variable {t t' t₁ t₂ : ValueTable} {v : Value} {a b r : Ref}

/-! ## Later tables -/

section Later

/-- All entries of the first table stand at their places in the second. -/
def Within (t t' : ValueTable) : Prop := ∀ (i : Nat) (v : Value), t.values[i]? = some v → t'.values[i]? = some v

theorem Within.refl (t : ValueTable) : t.Within t := fun _ _ h => h

theorem Within.trans (h : t.Within t₁) (h' : t₁.Within t₂) : t.Within t₂ := fun i v hv => h' i v (h i v hv)

theorem within_push (t : ValueTable) (v : Value) : t.Within (t.push v) := by
  intro i w hw
  have hi := lt_size_of_getElem? hw
  rw [values_push, if_neg (Nat.ne_of_lt hi), hw]

theorem additive_within (t : ValueTable) : Additive t.Within := fun t' v h _ _ => h.trans (within_push t' v)

theorem additive_wellFormed : Additive WellFormed := fun _ _ h hfresh hadm => h.push hfresh hadm

theorem Within.get? (h : t.Within t') (hv : t.get? r = some v) : t'.get? r = some v := by
  obtain ⟨i, rfl, hi⟩ := get?_eq_some_iff.1 hv
  rw [get?_natCast, h i v hi]

/-- A run from one table to another, made of requests of some kind. -/
def Leads (allowed : Request → Prop) : ValueTable → ValueTable → Prop :=
  Relation.ReflTransGen fun t t' => ∃ request, allowed request ∧ t.after request = t'

variable {allowed : Request → Prop}

theorem Leads.after (h : t.Leads allowed t') (request : Request) (hrequest : allowed request) :
    t.Leads allowed (t'.after request) := Relation.ReflTransGen.tail h ⟨request, hrequest, rfl⟩

theorem Leads.within (h : t.Leads allowed t') : t.Within t' := by
  induction h with
  | refl => exact .refl t
  | tail _ hstep ih =>
    obtain ⟨request, -, rfl⟩ := hstep
    exact (additive_within t).after (fun _ _ h => h) request ih

theorem Leads.reachable (h : t.Leads allowed t') (ht : t.Reachable) : t'.Reachable := by
  induction h with
  | refl => exact ht
  | tail _ hstep ih =>
    obtain ⟨request, -, rfl⟩ := hstep
    exact .after ih request

end Later

/-! ## Operations on later tables -/

section Again

theorem Within.get (h : t.Within t') (hv : t.get r = .ok v) : t'.get r = .ok v := by
  unfold ValueTable.get at hv
  split at hv
  · rename_i w hw
    cases hv
    exact get_eq_ok (h.get? hw)
  · cases hv

/-- **The same rule is taken** on every later table. -/
theorem Within.reduce (h : t.Within t') {op : Operator} {reduced : Reduced} (hreduce : t.reduce op a b = .ok reduced) :
    t'.reduce op a b = .ok reduced := by
  have ha : ∀ u, t.get a = .ok u → t'.get a = .ok u := fun u => h.get
  have hb : ∀ w, t.get b = .ok w → t'.get b = .ok w := fun w => h.get
  cases op <;> simp only [ValueTable.reduce, bind, Except.bind, pure, Except.pure] at hreduce ⊢ <;> grind

/-- An entry is found where it stands. -/
theorem WellFormed.intern_eq (h : t.WellFormed) {i : Nat} (hv : t.values[i]? = some v) :
    intern v t = (.ok (i : Ref), t) := by
  have hindex := (h.indexed v i).2 hv
  rcases intern_cases v t with ⟨j, hj, hrun⟩ | ⟨hnone, -⟩ | ⟨hnone, -⟩
  · obtain rfl : i = j := Option.some.inj (hindex.symm.trans hj)
    exact hrun
  · rw [hindex] at hnone
    cases hnone
  · rw [hindex] at hnone
    cases hnone

/-- What was interned is an entry, at the place that was given as the answer. -/
theorem WellFormed.getElem?_of_intern (h : t.WellFormed) (hrun : intern v t = (.ok r, t₁)) :
    ∃ i : Nat, r = i ∧ t₁.values[i]? = some v := by
  rcases intern_cases v t with ⟨i, hi, hfound⟩ | ⟨-, -, hrefused⟩ | ⟨-, -, hadded⟩
  · cases hfound.symm.trans hrun
    exact ⟨i, rfl, (h.indexed v i).1 hi⟩
  · cases hrefused.symm.trans hrun
  · cases hadded.symm.trans hrun
    exact ⟨t.size, rfl, by rw [values_push, if_pos rfl]⟩

end Again

/-! ## Work that can be done again -/

section Repeatable

variable {ε ε' α β : Type}

/-- The work only adds to tables, and once it has succeeded it gives the same answer on later tables and adds nothing. -/
structure Repeatable (work : Build ValueTable ε α) : Prop where
  adds : ∀ {P : ValueTable → Prop}, Additive P → Keeps P work
  again : ∀ {t t₁ t₂ : ValueTable} {a : α}, t.WellFormed → work t = (.ok a, t₁) → t₁.Within t₂ → t₂.WellFormed →
    work t₂ = (.ok a, t₂)

theorem repeatable_pure (a : α) : Repeatable (pure a : Build ValueTable ε α) where
  adds _ := keeps_pure a
  again _ hrun _ _ := by
    cases hrun
    rfl

theorem repeatable_throw (e : ε) : Repeatable (throw e : Build ValueTable ε α) where
  adds _ := keeps_throw e
  again _ hrun _ _ := by cases hrun

/-- The second part ran on a table that the last one includes, and the first part on one that this one includes. -/
theorem Repeatable.bind {work : Build ValueTable ε α} {next : α → Build ValueTable ε β} (hwork : Repeatable work)
    (hnext : ∀ a, Repeatable (next a)) : Repeatable (work >>= next) where
  adds hadd := (hwork.adds hadd).bind fun a => (hnext a).adds hadd
  again {t t₁ t₂ b} ht hrun hwithin ht₂ := by
    have hmiddle := hwork.adds additive_wellFormed t ht
    rcases hfirst : work t with ⟨e | a, t'⟩
    · rw [Build.bind_error next hfirst] at hrun
      cases hrun
    · rw [Build.bind_ok next hfirst] at hrun
      rw [hfirst] at hmiddle
      have hgrown := (hnext a).adds (additive_within t') t' (.refl t')
      rw [hrun] at hgrown
      rw [Build.bind_ok next (hwork.again ht hfirst (hgrown.trans hwithin) ht₂)]
      exact (hnext a).again hmiddle hrun hwithin ht₂

theorem Repeatable.adapt {work : Build ValueTable ε α} (hwork : Repeatable work) (f : ε → ε') :
    Repeatable (ExceptT.adapt f work) where
  adds hadd := (hwork.adds hadd).adapt f
  again {t t₁ t₂ a} ht hrun hwithin ht₂ := by
    rcases hfirst : work t with ⟨e | a', t'⟩
    · rw [Build.adapt_error f hfirst] at hrun
      cases hrun
    · rw [Build.adapt_ok f hfirst] at hrun
      cases hrun
      exact Build.adapt_ok f (hwork.again ht hfirst hwithin ht₂)

theorem repeatable_intern (v : Value) : Repeatable (intern v) where
  adds hadd := hadd.intern v
  again ht hrun hwithin ht₂ := by
    obtain ⟨i, rfl, hi⟩ := ht.getElem?_of_intern hrun
    exact ht₂.intern_eq (hwithin i v hi)

theorem repeatable_operate (op : Operator) (a b : Ref) : Repeatable (operate op a b) where
  adds hadd := hadd.operate op a b
  again {t t₁ t₂ r} ht hrun hwithin ht₂ := by
    have hgrown := (additive_within t).operate op a b t (.refl t)
    rw [hrun] at hgrown
    unfold operate at hrun ⊢
    cases hreduce : t.reduce op a b with
    | error e =>
      rw [hreduce] at hrun
      cases hrun
    | ok reduced =>
      rw [hreduce] at hrun
      rw [(hgrown.trans hwithin).reduce hreduce]
      cases reduced with
      | place r' =>
        cases hrun
        rfl
      | value v => exact (repeatable_intern v).again ht hrun hwithin ht₂

theorem repeatable_operation (op : Operator) (a b : Components) :
    Repeatable (Components.operation operate op a b) := by
  cases op
  -- up to eleven operations, then the pair of their results
  all_goals
    repeat refine Repeatable.bind (repeatable_operate _ _ _) fun _ => ?_
    exact repeatable_pure _

/-- Two constants, as the builder of components adds them. -/
theorem repeatable_constants (re im : Bytes) :
    Repeatable (ExceptT.adapt DecompositionError.table do
      let r ← constant re
      let i ← constant im
      return Components.mk r i : Build ValueTable DecompositionError Components) :=
  Repeatable.adapt ((repeatable_intern _).bind fun _ => (repeatable_intern _).bind fun _ => repeatable_pure _) _

theorem repeatable_name (id : Bytes) : Repeatable (Components.name id) := by
  unfold Components.name
  split
  · exact repeatable_pure _
  · split
    · exact repeatable_constants [Byte.zero] [Byte.one]
    · exact repeatable_throw _

end Repeatable

end ValueTable

/-! ## Formulas -/

namespace Formula

open Build ValueTable

variable {t t₁ t₂ : ValueTable}

/-- Decomposing a formula is a run of calls of the builder, also if it fails. -/
theorem leads_decompose (x : Formula) (t : ValueTable) : t.Leads (fun _ => True) (x.decompose t).2 :=
  x.keeps_decompose (P := t.Leads fun _ => True) (fun text _ h => h.after (.number text) trivial)
    (fun id _ h => h.after (.name id) trivial) (fun op a b _ h => h.after (.combine op a b) trivial) t .refl

theorem repeatable_decompose (x : Formula) : Repeatable x.decompose := by
  induction x with
  | hole => exact repeatable_throw _
  | number text => exact repeatable_constants text [Byte.zero]
  | name id => exact repeatable_name id
  | binary b l r ihl ihr =>
    refine ihl.bind fun x => ihr.bind fun y => ?_
    cases Operator.ofSymbol? b with
    | some op => exact (repeatable_operation op x y).adapt _
    | none => exact repeatable_throw _

/-- **Common subexpressions are shared for ever.** Once a formula has been decomposed, on any table that can be reached,
decomposing it again gives the same two places and adds nothing, whatever the table was asked for in between. -/
theorem decompose_shared_forever (x : Formula) (ht : t.Reachable) {c : Components}
    (hrun : x.decompose t = (.ok c, t₁)) (hlater : t₁.Leads (fun _ => True) t₂) : x.decompose t₂ = (.ok c, t₂) := by
  have hleads := x.leads_decompose t
  rw [hrun] at hleads
  have ht₁ := hleads.reachable ht
  exact x.repeatable_decompose.again ht.wellFormed hrun hlater.within (hlater.reachable ht₁).wellFormed

/-- The square of the argument. -/
def square : Formula := .binary Operator.mul.symbol (.name [Byte.letterZ]) (.name [Byte.letterZ])

/-- A table on which the square was decomposed, with the product of both components there before, and which was then asked
for a quotient of two of the new entries, for a sum with a place that is not there, and to record origins. -/
def afterSquare : ValueTable :=
  (((square.decompose (new.after (.operate .mul 0 1))).2.after (.operate .div 6 3)).after (.operate .add 2 9)).after
    (.record true)

theorem decompose_shared_forever_square :
    (square.decompose (new.after (.operate .mul 0 1))).1 = .ok ⟨5, 7⟩ ∧ afterSquare.size = 9 ∧
    square.decompose afterSquare = (.ok ⟨5, 7⟩, afterSquare) := by
  have hrun : (square.decompose (new.after (.operate .mul 0 1))).1 = .ok ⟨5, 7⟩ := by cbv
  refine ⟨hrun, by cbv, ?_⟩
  exact square.decompose_shared_forever (.after .new (.operate .mul 0 1)) (Prod.ext hrun rfl)
    (((Leads.after .refl _ trivial).after _ trivial).after _ trivial)

end Formula

end ComplexFormula
