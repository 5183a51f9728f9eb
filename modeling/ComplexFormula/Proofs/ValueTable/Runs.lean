import ComplexFormula.Proofs.ValueTable.Basic

/-!
# Runs of a table

A table starts with the two components of the argument and is then asked for anything, in any order: to intern values,
to operate on places, to take the calls of the builder of components, to record origins or not. A request may be
refused halfway; what was done before stays.

A computation on tables *keeps* a property if it leads from tables with the property to tables with it. All requests
are made of `intern`, so that a property that every addition keeps holds of all reachable tables
(`Reachable.induction`).
-/

namespace ComplexFormula

/-! ## What computations keep -/

namespace Build

variable {σ ε ε' α β : Type} {P : σ → Prop}

/-- The computation leads from states with a property to states with it. -/
def Keeps (P : σ → Prop) (work : Build σ ε α) : Prop := ∀ s, P s → P (work s).2

theorem keeps_pure (a : α) : Keeps P (pure a : Build σ ε α) := fun _ h => h

theorem keeps_throw (e : ε) : Keeps P (throw e : Build σ ε α) := fun _ h => h

theorem Keeps.bind {work : Build σ ε α} {next : α → Build σ ε β} (hwork : Keeps P work)
    (hnext : ∀ a, Keeps P (next a)) : Keeps P (work >>= next) := by
  intro s hs
  have h := hwork s hs
  rcases hrun : work s with ⟨_ | a, s'⟩
  · rw [Build.bind_error next hrun]
    rwa [hrun] at h
  · rw [Build.bind_ok next hrun]
    rw [hrun] at h
    exact hnext a s' h

theorem Keeps.adapt {work : Build σ ε α} (hwork : Keeps P work) (f : ε → ε') : Keeps P (ExceptT.adapt f work) := by
  intro s hs
  have h := hwork s hs
  rcases hrun : work s with ⟨_ | a, s'⟩
  · rw [Build.adapt_error f hrun]
    rwa [hrun] at h
  · rw [Build.adapt_ok f hrun]
    rwa [hrun] at h

/-- An operation on pairs keeps what the operations on places keep. -/
theorem Keeps.operation {operate : Operator → Ref → Ref → Build σ ε Ref} (h : ∀ op a b, Keeps P (operate op a b))
    (op : Operator) (a b : Components) : Keeps P (Components.operation operate op a b) := by
  cases op
  -- up to eleven operations, then the pair of their results
  all_goals
    repeat refine Keeps.bind (h _ _ _) fun _ => ?_
    exact keeps_pure _

end Build

open Build

namespace ValueTable

/-! ## Requests -/

section Requests

inductive Request where
  | intern (v : Value)
  | constant (text : Bytes)
  | operate (op : Operator) (a b : Ref)
  /-- The calls of the builder of components. -/
  | number (text : Bytes)
  | name (id : Bytes)
  | combine (op : Operator) (a b : Components)
  | record (on : Bool)

/-- The table after a request, refused or not. -/
def after (t : ValueTable) : Request → ValueTable
  | .intern v => (intern v t).2
  | .constant text => (constant text t).2
  | .operate op a b => (operate op a b t).2
  | .number text => (Components.builder.number text t).2
  | .name id => (Components.builder.name id t).2
  | .combine op a b => (Components.builder.binary op a b t).2
  | .record on => t.record on

inductive Reachable : ValueTable → Prop
  | new : Reachable new
  | after {t : ValueTable} (ht : Reachable t) (request : Request) : Reachable (t.after request)

end Requests

/-! ## Calls of the builder -/

section Callbacks

variable {P : ValueTable → Prop} (hconstant : ∀ text, Keeps P (constant text))

include hconstant

/-- Numbers keep what constants keep. -/
theorem keeps_number (text : Bytes) : Keeps P (Components.number text) := by
  refine Keeps.adapt ?_ _
  exact (hconstant _).bind fun _ => (hconstant _).bind fun _ => keeps_pure _

theorem keeps_name (id : Bytes) : Keeps P (Components.name id) := by
  unfold Components.name
  split
  · exact keeps_pure _
  · split
    · refine Keeps.adapt ?_ _
      exact (hconstant _).bind fun _ => (hconstant _).bind fun _ => keeps_pure _
    · exact keeps_throw _

end Callbacks

/-! ## Additions -/

section Additions

variable {P : ValueTable → Prop}

/-- Every fresh value with its operands in the table may be added. -/
def Additive (P : ValueTable → Prop) : Prop := ∀ t v, P t → t.index[v]? = none → t.Admits v → P (t.push v)

variable (hadd : Additive P)

include hadd

theorem Additive.intern (v : Value) : Keeps P (intern v) := by
  intro t ht
  rcases intern_cases v t with ⟨i, _, h⟩ | ⟨_, _, h⟩ | ⟨hfresh, hadm, h⟩
  · rwa [h]
  · rwa [h]
  · rw [h]
    exact hadd t v ht hfresh hadm

theorem Additive.constant (text : Bytes) : Keeps P (constant text) := hadd.intern _

theorem Additive.operate (op : Operator) (a b : Ref) : Keeps P (operate op a b) := by
  intro t ht
  unfold ValueTable.operate
  split
  · exact ht
  · exact hadd.intern _ t ht
  · exact ht

end Additions

/-! ## Reachable tables -/

section Reachable

variable {t : ValueTable}

/-- A request other than the switch keeps what every addition keeps. -/
theorem Additive.after_of_not_record {P : ValueTable → Prop} (hadd : Additive P) {request : Request}
    (hrequest : ∀ on, request ≠ .record on) (ht : P t) : P (t.after request) := by
  cases request with
  | intern v => exact hadd.intern v t ht
  | constant text => exact hadd.constant text t ht
  | operate op a b => exact hadd.operate op a b t ht
  | number text => exact keeps_number hadd.constant text t ht
  | name id => exact keeps_name hadd.constant id t ht
  | combine op a b => exact (Keeps.operation hadd.operate op a b).adapt _ t ht
  | record on => exact absurd rfl (hrequest on)

/-- A request keeps what every addition and the switch keep. -/
theorem Additive.after {P : ValueTable → Prop} (hadd : Additive P) (hrecord : ∀ t on, P t → P (t.record on))
    (request : Request) (ht : P t) : P (t.after request) := by
  by_cases hrequest : ∃ on, request = .record on
  · obtain ⟨on, rfl⟩ := hrequest
    exact hrecord t on ht
  · exact hadd.after_of_not_record (fun on heq => hrequest ⟨on, heq⟩) ht

/-- **Induction on runs**: a property of the first table that every addition and the switch keep. -/
theorem Reachable.induction {P : ValueTable → Prop} (hnew : P .new) (hadd : Additive P)
    (hrecord : ∀ t on, P t → P (t.record on)) (ht : Reachable t) : P t := by
  induction ht with
  | new => exact hnew
  | after _ request ih => exact hadd.after hrecord request ih

theorem Reachable.wellFormed (ht : Reachable t) : t.WellFormed :=
  ht.induction wellFormed_new (fun _ _ h hfresh hadm => h.push hfresh hadm) fun _ on h => h.record on

end Reachable

end ValueTable

/-- Decomposing a formula keeps what the calls of its builder keep. -/
theorem Formula.keeps_decompose {P : ValueTable → Prop} (hnumber : ∀ text, Keeps P (Components.builder.number text))
    (hname : ∀ id, Keeps P (Components.builder.name id)) (hbinary : ∀ op a b, Keeps P (Components.builder.binary op a b))
    (x : Formula) : Keeps P x.decompose := by
  induction x with
  | hole => exact keeps_throw _
  | number text => exact hnumber text
  | name id => exact hname id
  | binary b l r ihl ihr =>
    refine ihl.bind fun x => ihr.bind fun y => ?_
    cases Operator.ofSymbol? b with
    | some op => exact hbinary op x y
    | none => exact keeps_throw _

end ComplexFormula
