import ComplexFormula.Proofs.ValueTable.Runs
import Mathlib

/-!
# Noted origins

A table notes the entries that are added while it is told to. The list of notes is shorter than the list of entries and is
filled up when the next entry is noted, so that a note may be looked up where the list does not reach (`noted`). One
addition notes the new entry or not, as the switch stands, and leaves all other notes as they are (`noted_push`). From there
the notes after a whole run are read off the requests alone.

Nothing but the notes depends on the switch: on tables that differ in the switch and the notes only (`Alike`), every request
gets the same answer and leaves such tables again.
-/

namespace ComplexFormula

namespace ValueTable

open Build

variable {t t' : ValueTable} {v : Value}

/-! ## Notes -/

section Notes

/-- Whether an entry was noted. -/
def noted (t : ValueTable) (i : Nat) : Bool := (t.origins[i]?).getD false

theorem origin?_natCast (t : ValueTable) (i : Nat) : t.origin? i = some (t.noted i) :=
  if_neg (Int.not_lt.2 (Int.natCast_nonneg i))

theorem size_notedOrigins (h : t.origins.size ≤ t.size) : (t.push v).origins.size ≤ (t.push v).size := by
  rw [size_push]
  simp only [push, notedOrigins]
  split
  · simp only [Array.size_push, Array.size_append, Array.size_replicate]
    omega
  · omega

/-- **An addition** notes the new entry as the switch stands, and no other. -/
theorem noted_push (h : t.origins.size ≤ t.size) (v : Value) (i : Nat) :
    (t.push v).noted i = if i = t.size then t.recording else t.noted i := by
  simp only [noted, push, notedOrigins]
  cases hrecording : t.recording with
  | false =>
    by_cases hi : i = t.size
    · simp [hi, Array.getElem?_eq_none h]
    · simp [hi]
  | true =>
    -- the filled up list is as long as the list of entries
    have hsize : (t.origins ++ Array.replicate (t.size - t.origins.size) false).size = t.size := by
      simp only [Array.size_append, Array.size_replicate]
      omega
    rw [if_pos rfl, Array.getElem?_push, hsize]
    by_cases hi : i = t.size
    · simp [hi]
    · rw [if_neg hi, if_neg hi, Array.getElem?_append]
      split
      · rfl
      · rename_i hle
        have hnone : t.origins[i]? = none := Array.getElem?_eq_none (by omega)
        rw [hnone, Array.getElem?_replicate]
        split <;> rfl

/-- What a request other than the switch does to the notes: old entries keep theirs, and all new ones are noted as the
switch stands. -/
structure Noting (t t' : ValueTable) : Prop where
  size_le : t.size ≤ t'.size
  recording : t'.recording = t.recording
  origins : t'.origins.size ≤ t'.size
  old : ∀ i < t.size, t'.noted i = t.noted i
  new : ∀ i, t.size ≤ i → i < t'.size → t'.noted i = t.recording

theorem additive_noting (t : ValueTable) : Additive t.Noting := by
  intro t' v h _ _
  have hle := h.size_le
  refine ⟨?_, h.recording, size_notedOrigins h.origins, fun i hi => ?_, fun i hle' hlt => ?_⟩
  · rw [size_push]
    omega
  · rw [noted_push h.origins, if_neg (by omega), h.old i hi]
  · rw [noted_push h.origins, h.recording]
    rw [size_push] at hlt
    split
    · rfl
    · exact h.new i hle' (by omega)

theorem noting_refl (h : t.origins.size ≤ t.size) : t.Noting t :=
  ⟨Nat.le_refl _, rfl, h, fun _ _ => rfl, fun _ hle hlt => by omega⟩

end Notes

/-! ## Runs -/

section Runs

/-- The table after a run of requests. -/
def run (requests : List Request) : ValueTable := requests.foldl after new

/-- How the switch stands after a request. -/
def Request.switch (on : Bool) : Request → Bool
  | .record on => on
  | _ => on

/-- How the switch stands after a run of requests. -/
def switchedOn (requests : List Request) : Bool := requests.foldl Request.switch false

theorem run_concat (requests : List Request) (request : Request) :
    run (requests ++ [request]) = (run requests).after request := by
  simp [run]

theorem switchedOn_concat (requests : List Request) (request : Request) :
    switchedOn (requests ++ [request]) = request.switch (switchedOn requests) := by
  simp [switchedOn]

/-- **One request.** -/
theorem noted_after (h : t.origins.size ≤ t.size) (request : Request) :
    t.size ≤ (t.after request).size ∧ (t.after request).origins.size ≤ (t.after request).size ∧
    (t.after request).recording = request.switch t.recording ∧ (∀ i < t.size, (t.after request).noted i = t.noted i) ∧
    ∀ i, t.size ≤ i → i < (t.after request).size → (t.after request).noted i = t.recording := by
  by_cases hrequest : ∃ on, request = .record on
  · obtain ⟨on, rfl⟩ := hrequest
    exact ⟨Nat.le_refl _, h, rfl, fun _ _ => rfl, fun i hle hlt => absurd hlt (Nat.not_lt.2 hle)⟩
  · have hswitch : request.switch t.recording = t.recording := by
      cases request with
      | record on => exact absurd ⟨on, rfl⟩ hrequest
      | _ => rfl
    have hnoting := (additive_noting t).after_of_not_record (fun on heq => hrequest ⟨on, heq⟩) (noting_refl h)
    exact ⟨hnoting.size_le, hnoting.origins, hnoting.recording.trans hswitch.symm, hnoting.old, hnoting.new⟩

/-- The entry was added by the request at place `k` of a run. -/
def AddedBy (requests : List Request) (k i : Nat) : Prop :=
  (run (requests.take k)).size ≤ i ∧ i < (run (requests.take (k + 1))).size

/-- The list of notes is never longer than the list of entries, and the switch stands as the requests say. -/
theorem run_switched (requests : List Request) :
    (run requests).origins.size ≤ (run requests).size ∧ (run requests).recording = switchedOn requests := by
  induction requests using List.reverseRecOn with
  | nil => exact ⟨Nat.zero_le _, rfl⟩
  | append_singleton requests request ih =>
    obtain ⟨hsize, hrecording⟩ := ih
    obtain ⟨-, horigins, hswitch, -⟩ := noted_after hsize request
    rw [run_concat, switchedOn_concat, hswitch, hrecording]
    exact ⟨horigins, rfl⟩

theorem size_run_le (requests later : List Request) : (run requests).size ≤ (run (requests ++ later)).size := by
  induction later using List.reverseRecOn with
  | nil => simp
  | append_singleton later request ih =>
    rw [← List.append_assoc, run_concat]
    exact Nat.le_trans ih (noted_after (run_switched _).1 request).1

theorem AddedBy.lt {requests : List Request} {k i : Nat} (h : AddedBy requests k i) :
    k < requests.length ∧ i < (run requests).size := by
  constructor
  · refine Nat.lt_of_not_le fun hle => ?_
    have h' := h
    rw [AddedBy, List.take_of_length_le hle, List.take_of_length_le (by omega)] at h'
    omega
  · have hle := size_run_le (requests.take (k + 1)) (requests.drop (k + 1))
    rw [List.take_append_drop] at hle
    exact Nat.lt_of_lt_of_le h.2 hle

/-- The entries that one more request adds. -/
theorem addedBy_concat (requests : List Request) (request : Request) (k i : Nat) :
    AddedBy (requests ++ [request]) k i ↔ AddedBy requests k i ∨
      k = requests.length ∧ (run requests).size ≤ i ∧ i < (run (requests ++ [request])).size := by
  rcases Nat.lt_trichotomy k requests.length with hlt | rfl | hgt
  · rw [AddedBy, AddedBy, List.take_append_of_le_length hlt.le, List.take_append_of_le_length hlt]
    simp [hlt.ne]
  · have hnot : ¬AddedBy requests requests.length i := fun h => absurd h.lt.1 (Nat.lt_irrefl _)
    have hlength : requests.length + 1 = (requests ++ [request]).length := by simp
    rw [AddedBy, List.take_left, hlength, List.take_length]
    simp [hnot]
  · have hnot : ¬AddedBy requests k i := fun h => absurd h.lt.1 (by omega)
    have hnot' : ¬AddedBy (requests ++ [request]) k i := by
      intro h
      have := h.lt.1
      simp only [List.length_append, List.length_cons, List.length_nil] at this
      omega
    simp [hnot, hnot', hgt.ne']

/-- **The notes after a run**: an entry is noted if the switch stood on when it was added. -/
theorem noted_run (requests : List Request) (i : Nat) :
    (run requests).noted i = true ↔ ∃ k, AddedBy requests k i ∧ switchedOn (requests.take k) = true := by
  induction requests using List.reverseRecOn with
  | nil =>
    constructor
    · intro h
      cases h
    · rintro ⟨k, h, -⟩
      exact absurd h.lt.1 (Nat.not_lt_zero _)
  | append_singleton requests request ih =>
    obtain ⟨horigins, hrecording⟩ := run_switched requests
    obtain ⟨hsize, -, -, hold, hnew⟩ := noted_after horigins request
    rw [← run_concat] at hsize hold hnew
    -- the switch as it stood at an earlier request
    have hearlier : ∀ k, AddedBy requests k i →
        switchedOn ((requests ++ [request]).take k) = switchedOn (requests.take k) := by
      intro k hk
      rw [List.take_append_of_le_length hk.lt.1.le]
    by_cases hi : i < (run requests).size
    · rw [hold i hi, ih]
      constructor
      · rintro ⟨k, hk, hon⟩
        exact ⟨k, (addedBy_concat ..).2 (.inl hk), (hearlier k hk).trans hon⟩
      · rintro ⟨k, hk, hon⟩
        rcases (addedBy_concat ..).1 hk with hk | ⟨-, hle, -⟩
        · exact ⟨k, hk, (hearlier k hk).symm.trans hon⟩
        · omega
    · by_cases hlt : i < (run (requests ++ [request])).size
      · rw [hnew i (Nat.le_of_not_lt hi) hlt, hrecording]
        constructor
        · intro hon
          refine ⟨requests.length, (addedBy_concat ..).2 (.inr ⟨rfl, Nat.le_of_not_lt hi, hlt⟩), ?_⟩
          rwa [List.take_left]
        · rintro ⟨k, hk, hon⟩
          rcases (addedBy_concat ..).1 hk with hk | ⟨rfl, -⟩
          · exact absurd hk.lt.2 hi
          · rwa [List.take_left] at hon
      · have hnone : (run (requests ++ [request])).origins[i]? = none :=
          Array.getElem?_eq_none (Nat.le_trans (run_switched _).1 (Nat.le_of_not_lt hlt))
        constructor
        · intro h
          rw [noted, hnone] at h
          cases h
        · rintro ⟨k, hk, -⟩
          exact absurd hk.lt.2 hlt

end Runs

/-! ## The switch is inert -/

section Inert

variable {ε ε' α β : Type}

/-- The tables have the same entries and find them at the same places. -/
structure Alike (t t' : ValueTable) : Prop where
  values : t.values = t'.values
  index : t.index = t'.index

/-- The work does not see the switch and the notes: it gives the same answer on tables that are alike, and leaves them so. -/
def Blind (work : Build ValueTable ε α) : Prop :=
  ∀ ⦃t t' : ValueTable⦄, t.Alike t' → (work t).1 = (work t').1 ∧ (work t).2.Alike (work t').2

theorem blind_pure (a : α) : Blind (pure a : Build ValueTable ε α) := fun _ _ h => ⟨rfl, h⟩

theorem blind_throw (e : ε) : Blind (throw e : Build ValueTable ε α) := fun _ _ h => ⟨rfl, h⟩

theorem Blind.bind {work : Build ValueTable ε α} {next : α → Build ValueTable ε β} (hwork : Blind work)
    (hnext : ∀ a, Blind (next a)) : Blind (work >>= next) := by
  intro t t' h
  obtain ⟨hanswer, halike⟩ := hwork h
  rcases hrun : work t with ⟨e | a, t₁⟩
  all_goals
    rcases hrun' : work t' with ⟨answer', t₁'⟩
    rw [hrun, hrun'] at hanswer halike
    cases hanswer
  · rw [Build.bind_error next hrun, Build.bind_error next hrun']
    exact ⟨rfl, halike⟩
  · rw [Build.bind_ok next hrun, Build.bind_ok next hrun']
    exact hnext a halike

theorem Blind.adapt {work : Build ValueTable ε α} (hwork : Blind work) (f : ε → ε') :
    Blind (ExceptT.adapt f work) := by
  intro t t' h
  obtain ⟨hanswer, halike⟩ := hwork h
  exact ⟨congrArg (Except.mapError f) hanswer, halike⟩

theorem Blind.operation {operate : Operator → Ref → Ref → Build ValueTable ε Ref} (h : ∀ op a b, Blind (operate op a b))
    (op : Operator) (a b : Components) : Blind (Components.operation operate op a b) := by
  cases op
  all_goals
    repeat refine Blind.bind (h _ _ _) fun _ => ?_
    exact blind_pure _

theorem blind_intern (v : Value) : Blind (intern v) := by
  intro t t' h
  have hsize : t.size = t'.size := congrArg Array.size h.values
  have hadmits : t.Admits v ↔ t'.Admits v := by
    simp only [Admits, holds, hsize]
  rcases intern_cases v t with ⟨i, hi, hrun⟩ | ⟨hi, hadm, hrun⟩ | ⟨hi, hadm, hrun⟩
  all_goals
    rw [h.index] at hi
    rcases intern_cases v t' with ⟨j, hj, hrun'⟩ | ⟨hj, hadm', hrun'⟩ | ⟨hj, hadm', hrun'⟩
  all_goals
    rw [hrun, hrun']
    rw [hi] at hj
  · cases hj
    exact ⟨rfl, h⟩
  · cases hj
  · cases hj
  · cases hj
  · exact ⟨rfl, h⟩
  · exact absurd (hadmits.2 hadm') hadm
  · cases hj
  · exact absurd (hadmits.1 hadm) hadm'
  · refine ⟨by rw [hsize], ?_, ?_⟩
    · simp only [push, h.values]
    · simp only [push, h.index, hsize]

theorem blind_operate (op : Operator) (a b : Ref) : Blind (operate op a b) := by
  intro t t' h
  have hget : t.get = t'.get := by
    funext r
    simp only [ValueTable.get, get?, h.values]
  have hreduce : t.reduce op a b = t'.reduce op a b := by
    cases op <;> simp only [reduce, hget]
  unfold operate
  rw [← hreduce]
  cases t.reduce op a b with
  | error e => exact ⟨rfl, h⟩
  | ok reduced =>
    cases reduced with
    | place r => exact ⟨rfl, h⟩
    | value v => exact blind_intern v h

theorem blind_constants (re im : Bytes) :
    Blind (ExceptT.adapt DecompositionError.table do
      let r ← constant re
      let i ← constant im
      return Components.mk r i : Build ValueTable DecompositionError Components) :=
  ((blind_intern _).bind fun _ => (blind_intern _).bind fun _ => blind_pure _).adapt _

theorem blind_name (id : Bytes) : Blind (Components.name id) := by
  unfold Components.name
  split
  · exact blind_pure _
  · split
    · exact blind_constants _ _
    · exact blind_throw _

/-- What a request is answered with. -/
inductive Answer where
  | place (answer : Except TableFault Ref)
  | pair (answer : Except DecompositionError Components)
  | none

def answer (t : ValueTable) : Request → Answer
  | .intern v => .place (intern v t).1
  | .constant text => .place (constant text t).1
  | .operate op a b => .place (operate op a b t).1
  | .number text => .pair (Components.builder.number text t).1
  | .name id => .pair (Components.builder.name id t).1
  | .combine op a b => .pair (Components.builder.binary op a b t).1
  | .record _ => .none

/-- **One request** on tables that are alike. -/
theorem Alike.after (h : t.Alike t') (request : Request) :
    t.answer request = t'.answer request ∧ (t.after request).Alike (t'.after request) := by
  cases request with
  | intern v => exact ⟨congrArg Answer.place (blind_intern v h).1, (blind_intern v h).2⟩
  | constant text => exact ⟨congrArg Answer.place (blind_intern _ h).1, (blind_intern _ h).2⟩
  | operate op a b => exact ⟨congrArg Answer.place (blind_operate op a b h).1, (blind_operate op a b h).2⟩
  | number text => exact ⟨congrArg Answer.pair (blind_constants text _ h).1, (blind_constants text _ h).2⟩
  | name id => exact ⟨congrArg Answer.pair (blind_name id h).1, (blind_name id h).2⟩
  | combine op a b =>
    have hblind := ((Blind.operation blind_operate op a b).adapt DecompositionError.table) h
    exact ⟨congrArg Answer.pair hblind.1, hblind.2⟩
  | record on => exact ⟨rfl, h.values, h.index⟩

def Request.isRecord : Request → Bool
  | .record _ => true
  | _ => false

/-- What is seen of a run from a table on, step by step: the answer to every request but the switch, and the entries after
it. -/
def trace (t : ValueTable) : List Request → List (Answer × Array Value)
  | [] => []
  | request :: later =>
    if request.isRecord then trace (t.after request) later
    else (t.answer request, (t.after request).values) :: trace (t.after request) later

/-- **The switch changes nothing that is seen**: a run without it looks the same. -/
theorem Alike.trace (h : t.Alike t') (requests : List Request) :
    t.trace requests = t'.trace (requests.filter fun request => !request.isRecord) := by
  induction requests generalizing t t' with
  | nil => rfl
  | cons request requests ih =>
    cases hrecord : request.isRecord with
    | true =>
      have hswitched : (t.after request).Alike t' := by
        cases request with
        | record on => exact ⟨h.values, h.index⟩
        | _ => cases hrecord
      rw [ValueTable.trace, if_pos hrecord, ih hswitched, List.filter_cons_of_neg (by simp [hrecord])]
    | false =>
      obtain ⟨hanswer, hafter⟩ := h.after request
      rw [ValueTable.trace, List.filter_cons_of_pos (by simp [hrecord]), ValueTable.trace, if_neg (by simp [hrecord]),
        if_neg (by simp [hrecord]), hanswer, hafter.values, ih hafter]

end Inert

/-! ## Whole runs -/

/-- **Notes are exact and inert.** After any run, refused requests included, an entry is noted if and only if the switch
stood on when it was added, and what is asked for later changes no note of an entry. Two runs that differ only in when
the switch is used get the same answers and have the same entries after every step. -/
theorem origins_exact_and_inert :
    (∀ (requests : List Request) (i : Nat), (run requests).origin? i = some true ↔
      ∃ k, AddedBy requests k i ∧ switchedOn (requests.take k) = true) ∧
    (∀ (requests later : List Request) (i : Nat), i < (run requests).size →
      (run (requests ++ later)).origin? i = (run requests).origin? i) ∧
    ∀ requests requests' : List Request,
      requests.filter (fun request => !request.isRecord) = requests'.filter (fun request => !request.isRecord) →
      new.trace requests = new.trace requests' := by
  refine ⟨fun requests i => ?_, fun requests later i hi => ?_, fun requests requests' h => ?_⟩
  · rw [origin?_natCast, Option.some.injEq]
    exact noted_run requests i
  · induction later using List.reverseRecOn with
    | nil => rw [List.append_nil]
    | append_singleton later request ih =>
      have hsize := Nat.lt_of_lt_of_le hi (size_run_le requests later)
      rw [← ih, ← List.append_assoc, run_concat, origin?_natCast, origin?_natCast,
        (noted_after (run_switched _).1 request).2.2.2.1 i hsize]
  · have hself : new.Alike new := ⟨rfl, rfl⟩
    rw [hself.trace requests, hself.trace requests', h]

/-- A constant that is not noted, a product that is, and the constant again while notes are taken. -/
def switchedTwice : List Request :=
  [.constant (bytes "2"), .record true, .operate .mul 0 1, .record false, .constant (bytes "3"), .record true,
    .constant (bytes "2"), .combine .mul ⟨0, 1⟩ ⟨2, 4⟩]

theorem origins_exact_and_inert_switchedTwice :
    (AddedBy switchedTwice 2 3 ∧ (run switchedTwice).origin? 3 = some true) ∧
    (AddedBy switchedTwice 7 9 ∧ (run switchedTwice).origin? 9 = some true) ∧
    (2 < (run (switchedTwice.take 1)).size ∧ (run switchedTwice).origin? 2 = some false) ∧
    new.trace switchedTwice = new.trace (switchedTwice.filter fun request => !request.isRecord) := by
  obtain ⟨hexact, hkept, hinert⟩ := origins_exact_and_inert
  have hproduct : AddedBy switchedTwice 2 3 := ⟨by cbv, by cbv⟩
  have hpair : AddedBy switchedTwice 7 9 := ⟨by cbv, by cbv⟩
  have hfirst : 2 < (run (switchedTwice.take 1)).size := by cbv
  have hunnoted : (run (switchedTwice.take 1)).origin? (2 : Nat) = some false := by cbv
  refine ⟨⟨hproduct, (hexact switchedTwice 3).2 ⟨2, hproduct, rfl⟩⟩, ⟨hpair, (hexact switchedTwice 9).2 ⟨7, hpair, rfl⟩⟩,
    ⟨hfirst, ?_⟩, ?_⟩
  · exact (hkept (switchedTwice.take 1) (switchedTwice.drop 1) 2 hfirst).trans hunnoted
  · exact hinert _ _ (by rw [List.filter_filter]; simp)

end ValueTable

end ComplexFormula
