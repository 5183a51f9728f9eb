import ComplexFormula.Compilation
import ComplexFormula.Proofs.Grammar.Reading
import ComplexFormula.Proofs.Program.Emission
import ComplexFormula.Proofs.ValueTable.Runs
import ComplexFormula.Proofs.ValueTable.Simplification
import Mathlib

/-!
# Compilation keeps the meaning of formulas

A formula has a value at every point, by recursion on its tree (`Formula.value`). The program of a text computes the
value of its formula, over all numbers in which the simplifying laws hold and in which the constants that were computed
during compilation are exact.

Which constants are computed depends on the whole run, since a constant can be the operand of the next operation. They
are found by reading the text with a builder that does the work of the builder of components and takes note of every
fold (`Watched.builder`, `foldsOf`). Leaving out the notes gives back the run of the compiler (`Watched.erases_fold`).
-/

namespace ComplexFormula

open Build

variable {K ε α β : Type}

/-! ## Values of formulas -/

/-- The operations on pairs. -/
def Arithmetic.complex (A : Arithmetic K) : Operator → K × K → K × K → K × K
  | .add, (ar, ai), (br, bi) => (A.operate .add ar br, A.operate .add ai bi)
  | .sub, (ar, ai), (br, bi) => (A.operate .sub ar br, A.operate .sub ai bi)
  | .mul, (ar, ai), (br, bi) =>
    (A.operate .sub (A.operate .mul ar br) (A.operate .mul ai bi),
      A.operate .add (A.operate .mul ar bi) (A.operate .mul ai br))
  | .div, (ar, ai), (br, bi) =>
    let norm := A.operate .add (A.operate .mul br br) (A.operate .mul bi bi)
    (A.operate .div (A.operate .add (A.operate .mul ar br) (A.operate .mul ai bi)) norm,
      A.operate .div (A.operate .sub (A.operate .mul ai br) (A.operate .mul ar bi)) norm)

namespace Formula

/-- The value at the point with components `x` and `y`. -/
def value (A : Arithmetic K) (one x y : K) : Formula → Option (K × K)
  | .hole => none
  | .number text => some (A.constant text, A.zero)
  | .name id =>
    if id = [Byte.letterZ] then some (x, y) else if id = [Byte.letterI] then some (A.zero, one) else none
  | .binary b l r => do
    let p ← l.value A one x y
    let q ← r.value A one x y
    let op ← Operator.ofSymbol? b
    some (A.complex op p q)

/-- The names in a formula, from left to right. -/
def names : Formula → List Bytes
  | .hole | .number _ => []
  | .name id => [id]
  | .binary _ l r => l.names ++ r.names

end Formula

/-! ## The folds of a compilation -/

/-- A table and the folds that were performed on it. -/
abbrev Watched := ValueTable × List Fold

namespace Watched

/-- The computation keeps the notes there are. -/
def KeepsNotes (work : Build Watched ε α) : Prop := ∀ fold : Fold, Keeps (fun s => fold ∈ s.2) work

/-- A computation that performs no fold. -/
def lift (work : Build ValueTable ε α) : Build Watched ε α := fun (t, folds) =>
  match work t with
  | (result, t') => (result, t', folds)

/-- Computations that keep their notes. -/
def Watching (ε α : Type) := { work : Build Watched ε α // KeepsNotes work }

instance : Monad (Watching ε) where
  pure a := ⟨pure a, fun _ => keeps_pure a⟩
  bind work next := ⟨work.1 >>= fun a => (next a).1, fun fold => (work.2 fold).bind fun a => (next a).2 fold⟩

/-- The operation on two places; a fold is noted. -/
def operate (op : Operator) (a b : Ref) : Watching TableFault Ref where
  val := fun (t, folds) =>
    match ValueTable.operate op a b t with
    | (result, t') => (result, t', folds ++ (t.fold? op a b).toList)
  property := fun _ _ h => List.mem_append_left _ h

def builder : Builder Watched DecompositionError Components where
  number text := lift (Components.number text)
  name id := lift (Components.name id)
  binary op a b := ExceptT.adapt .table (Components.operation operate op a b).1
  kind := Components.builder.kind

theorem keepsNotes_fold (x : ParseTree) : KeepsNotes (x.fold builder) := by
  intro fold
  induction x with
  | number text => exact fun _ h => h
  | name id => exact fun _ h => h
  | operation op l r ihl ihr =>
    exact ihl.bind fun a => ihr.bind fun b => ((Components.operation operate op a b).2 fold).adapt _

end Watched

/-- The folds performed while a text is compiled, in their order. -/
def foldsOf (text : Bytes) : List Fold := (Watched.builder.drive text (.new, [])).2.2

namespace Watched

/-! ### Leaving out the notes -/

/-- Without its notes, `work` is `plain`. -/
def Erases (work : Build Watched ε α) (plain : Build ValueTable ε α) : Prop :=
  ∀ t folds, ((work (t, folds)).1, (work (t, folds)).2.1) = plain t

theorem Erases.bind {work : Build Watched ε α} {plain : Build ValueTable ε α} {next : α → Build Watched ε β}
    {plainNext : α → Build ValueTable ε β} (h : Erases work plain) (hnext : ∀ a, Erases (next a) (plainNext a)) :
    Erases (work >>= next) (plain >>= plainNext) := by
  intro t folds
  have hwork := h t folds
  rcases hrun : work (t, folds) with ⟨e | a, t', folds'⟩
  · rw [hrun] at hwork
    rw [Build.bind_error next hrun, Build.bind_error plainNext hwork.symm]
  · rw [hrun] at hwork
    rw [Build.bind_ok next hrun, Build.bind_ok plainNext hwork.symm]
    exact hnext a t' folds'

theorem Erases.adapt {ε' : Type} {work : Build Watched ε α} {plain : Build ValueTable ε α} (h : Erases work plain)
    (f : ε → ε') : Erases (ExceptT.adapt f work) (ExceptT.adapt f plain) := by
  intro t folds
  have hwork := h t folds
  rcases hrun : work (t, folds) with ⟨e | a, t', folds'⟩
  · rw [hrun] at hwork
    rw [Build.adapt_error f hrun, Build.adapt_error f hwork.symm]
  · rw [hrun] at hwork
    rw [Build.adapt_ok f hrun, Build.adapt_ok f hwork.symm]

theorem erases_operate (op : Operator) (a b : Ref) : Erases (operate op a b).1 (ValueTable.operate op a b) :=
  fun _ _ => rfl

theorem erases_operation (op : Operator) (a b : Components) :
    Erases (Components.operation operate op a b).1 (Components.operation ValueTable.operate op a b) := by
  cases op
  all_goals
    repeat refine Erases.bind (erases_operate _ _ _) fun _ => ?_
    exact fun _ _ => rfl

/-- Folding a tree under watch is folding the tree. -/
theorem erases_fold (x : ParseTree) : Erases (x.fold builder) (x.fold Components.builder) := by
  induction x with
  | number text => exact fun _ _ => rfl
  | name id => exact fun _ _ => rfl
  | operation op l r ihl ihr => exact ihl.bind fun _ => ihr.bind fun _ => (erases_operation op _ _).adapt _

/-! ## Runs with exact folds -/

/-- If all folds noted in the end are exact, the computation succeeds on the table `t`, all places denote what they did,
and the result is as `post` says. -/
def Meets (A : Arithmetic K) (t : ValueTable) (work : Build Watched ε α) (post : α → ValueTable → Prop) : Prop :=
  ∀ folds, (∀ fold ∈ (work (t, folds)).2.2, fold.Exact A) →
    ∃ a t' folds', work (t, folds) = (.ok a, t', folds') ∧ t'.Sound ∧ t.Extends A t' ∧ post a t'

variable {A : Arithmetic K} {t : ValueTable} {P : α → ValueTable → Prop} {Q : β → ValueTable → Prop}

theorem meets_pure {a : α} (hs : t.Sound) (h : P a t) : Meets A t (pure a : Build Watched ε α) P :=
  fun folds _ => ⟨a, t, folds, rfl, hs, ValueTable.Extends.refl t, h⟩

/-- Folds are exact up to the middle if they are in the end, since notes stay. -/
theorem Meets.bind {work : Build Watched ε α} {next : α → Build Watched ε β} (h : Meets A t work P)
    (hkeeps : ∀ a, KeepsNotes (next a))
    (hnext : ∀ a t', t'.Sound → t.Extends A t' → P a t' → Meets A t' (next a) Q) : Meets A t (work >>= next) Q := by
  intro folds hexact
  rcases hrun : work (t, folds) with ⟨e | a, t', folds'⟩
  · rw [Build.bind_error next hrun] at hexact
    obtain ⟨a, _, _, hok, -⟩ := h folds (by rw [hrun]; exact hexact)
    rw [hrun] at hok
    cases hok
  · rw [Build.bind_ok next hrun] at hexact ⊢
    have hmiddle : ∀ fold ∈ folds', fold.Exact A := fun fold hfold => hexact fold (hkeeps a fold (t', folds') hfold)
    obtain ⟨_, _, _, hok, hs, hextends, hP⟩ := h folds (by rw [hrun]; exact hmiddle)
    rw [hrun] at hok
    cases hok
    obtain ⟨b, t'', folds'', hlast, hs'', hextends'', hQ⟩ := hnext a t' hs hextends hP folds' hexact
    exact ⟨b, t'', folds'', hlast, hs'', hextends.trans hextends'', hQ⟩

theorem Meets.adapt {ε' : Type} {work : Build Watched ε α} (h : Meets A t work P) (f : ε → ε') :
    Meets A t (ExceptT.adapt f work) P := by
  intro folds hexact
  rcases hrun : work (t, folds) with ⟨e | a, t', folds'⟩
  · rw [Build.adapt_error f hrun] at hexact
    obtain ⟨a, _, _, hok, -⟩ := h folds (by rw [hrun]; exact hexact)
    rw [hrun] at hok
    cases hok
  · rw [Build.adapt_ok f hrun] at hexact ⊢
    obtain ⟨_, _, _, hok, hrest⟩ := h folds (by rw [hrun]; exact hexact)
    rw [hrun] at hok
    cases hok
    exact ⟨a, t', folds', rfl, hrest⟩

theorem meets_lift {work : Build ValueTable ε α}
    (h : ∃ a t', work t = (.ok a, t') ∧ t'.Sound ∧ t.Extends A t' ∧ P a t') : Meets A t (lift work) P := by
  intro folds _
  obtain ⟨a, t', hrun, hs, hextends, hP⟩ := h
  refine ⟨a, t', folds, ?_, hs, hextends, hP⟩
  simp only [lift, hrun]

/-- Computations that keep their notes, one after the other. -/
theorem Meets.step {work : Watching ε α} {next : α → Watching ε β} (h : Meets A t work.1 P)
    (hnext : ∀ a t', t'.Sound → t.Extends A t' → P a t' → Meets A t' (next a).1 Q) :
    Meets A t (work >>= next).1 Q := h.bind (fun a => (next a).2) hnext

variable {one : K} {a b : Components} {F G : K → K → K × K}

theorem meets_operate (hA : A.Lawful one) (hs : t.Sound) (op : Operator) {a b : Ref} {f g : K → K → K}
    (ha : t.Denotes A a f) (hb : t.Denotes A b g) :
    Meets A t (operate op a b).1 fun r t' => t'.Denotes A r fun x y => A.operate op (f x y) (g x y) := by
  intro folds hexact
  have hfold : ∀ fold ∈ t.fold? op a b, fold.Exact A :=
    fun fold hfold => hexact fold (List.mem_append_right _ (Option.mem_toList.2 hfold))
  obtain ⟨r, t', hrun, hs', hextends, hr⟩ := ValueTable.operate_denotes hA hs op ha hb hfold
  refine ⟨r, t', folds ++ (t.fold? op a b).toList, ?_, hs', hextends, hr⟩
  simp only [operate, hrun]

/-- Two places that denote the components of `F`. -/
def DenotesPair (A : Arithmetic K) (t : ValueTable) (c : Components) (F : K → K → K × K) : Prop :=
  t.Denotes A c.re (fun x y => (F x y).1) ∧ t.Denotes A c.im (fun x y => (F x y).2)

theorem meets_operation (hA : A.Lawful one) (hs : t.Sound) (op : Operator) (ha : DenotesPair A t a F)
    (hb : DenotesPair A t b G) :
    Meets A t (Components.operation operate op a b).1 fun c t' =>
      DenotesPair A t' c fun x y => A.complex op (F x y) (G x y) := by
  cases op with
  | add =>
    refine (meets_operate hA hs .add ha.1 hb.1).step fun re t₁ hs₁ e₁ hre => ?_
    refine (meets_operate hA hs₁ .add (e₁ ha.2) (e₁ hb.2)).step fun im t₂ hs₂ e₂ him => ?_
    exact meets_pure hs₂ ⟨e₂ hre, him⟩
  | sub =>
    refine (meets_operate hA hs .sub ha.1 hb.1).step fun re t₁ hs₁ e₁ hre => ?_
    refine (meets_operate hA hs₁ .sub (e₁ ha.2) (e₁ hb.2)).step fun im t₂ hs₂ e₂ him => ?_
    exact meets_pure hs₂ ⟨e₂ hre, him⟩
  | mul =>
    refine (meets_operate hA hs .mul ha.1 hb.1).step fun rr t₁ hs₁ e₁ hrr => ?_
    refine (meets_operate hA hs₁ .mul (e₁ ha.2) (e₁ hb.2)).step fun ii t₂ hs₂ e₂ hii => ?_
    refine (meets_operate hA hs₂ .sub (e₂ hrr) hii).step fun re t₃ hs₃ e₃ hre => ?_
    have e₃' : t.Extends A t₃ := (e₁.trans e₂).trans e₃
    refine (meets_operate hA hs₃ .mul (e₃' ha.1) (e₃' hb.2)).step fun ri t₄ hs₄ e₄ hri => ?_
    have e₄' : t.Extends A t₄ := e₃'.trans e₄
    refine (meets_operate hA hs₄ .mul (e₄' ha.2) (e₄' hb.1)).step fun ir t₅ hs₅ e₅ hir => ?_
    refine (meets_operate hA hs₅ .add (e₅ hri) hir).step fun im t₆ hs₆ e₆ him => ?_
    exact meets_pure hs₆ ⟨e₆ (e₅ (e₄ hre)), him⟩
  | div =>
    refine (meets_operate hA hs .mul hb.1 hb.1).step fun squareRe t₁ hs₁ e₁ hsquareRe => ?_
    refine (meets_operate hA hs₁ .mul (e₁ hb.2) (e₁ hb.2)).step fun squareIm t₂ hs₂ e₂ hsquareIm => ?_
    refine (meets_operate hA hs₂ .add (e₂ hsquareRe) hsquareIm).step fun norm t₃ hs₃ e₃ hnorm => ?_
    have e₃' : t.Extends A t₃ := (e₁.trans e₂).trans e₃
    refine (meets_operate hA hs₃ .mul (e₃' ha.1) (e₃' hb.1)).step fun rr t₄ hs₄ e₄ hrr => ?_
    have e₄' : t.Extends A t₄ := e₃'.trans e₄
    refine (meets_operate hA hs₄ .mul (e₄' ha.2) (e₄' hb.2)).step fun ii t₅ hs₅ e₅ hii => ?_
    refine (meets_operate hA hs₅ .add (e₅ hrr) hii).step fun sum t₆ hs₆ e₆ hsum => ?_
    have hnorm₆ := e₆ (e₅ (e₄ hnorm))
    refine (meets_operate hA hs₆ .div hsum hnorm₆).step fun re t₇ hs₇ e₇ hre => ?_
    have e₇' : t.Extends A t₇ := ((e₄'.trans e₅).trans e₆).trans e₇
    refine (meets_operate hA hs₇ .mul (e₇' ha.2) (e₇' hb.1)).step fun ir t₈ hs₈ e₈ hir => ?_
    have e₈' : t.Extends A t₈ := e₇'.trans e₈
    refine (meets_operate hA hs₈ .mul (e₈' ha.1) (e₈' hb.2)).step fun ri t₉ hs₉ e₉ hri => ?_
    refine (meets_operate hA hs₉ .sub (e₉ hir) hri).step fun difference t₁₀ hs₁₀ e₁₀ hdifference => ?_
    have hnorm₁₀ := e₁₀ (e₉ (e₈ (e₇ hnorm₆)))
    refine (meets_operate hA hs₁₀ .div hdifference hnorm₁₀).step fun im t₁₁ hs₁₁ e₁₁ him => ?_
    exact meets_pure hs₁₁ ⟨e₁₁ (e₁₀ (e₉ (e₈ hre))), him⟩

/-- The components of the argument stand in every table. -/
theorem denotesPair_argument (hs : t.Sound) : DenotesPair A t ⟨0, 1⟩ fun x y => (x, y) := by
  constructor
  · intro x y known hknown
    obtain ⟨k, hk, hvalue⟩ := ValueTable.getElem?_evaluate hknown hs.wellFormed.real
    cases hvalue
    exact (valueAt_natCast known 0).trans hk
  · intro x y known hknown
    obtain ⟨k, hk, hvalue⟩ := ValueTable.getElem?_evaluate hknown hs.wellFormed.imaginary
    cases hvalue
    exact (valueAt_natCast known 1).trans hk

/-- Two constants, as the builder of components adds them. -/
theorem constants_denote (hs : t.Sound) (re im : Bytes) :
    ∃ c t', (ExceptT.adapt DecompositionError.table do
        let r ← ValueTable.constant re
        let i ← ValueTable.constant im
        return Components.mk r i : Build ValueTable DecompositionError Components) t = (.ok c, t') ∧
      t'.Sound ∧ t.Extends A t' ∧ DenotesPair A t' c fun _ _ => (A.constant re, A.constant im) := by
  obtain ⟨r, t₁, hr, hs₁, e₁, hre⟩ := ValueTable.intern_denotes hs (ValueTable.means_constant t re)
  obtain ⟨i, t₂, hi, hs₂, e₂, him⟩ := ValueTable.intern_denotes hs₁ (ValueTable.means_constant t₁ im)
  refine ⟨⟨r, i⟩, t₂, Build.adapt_ok _ ?_, hs₂, e₁.trans e₂, e₂ hre, him⟩
  exact (Build.bind_ok _ hr).trans (Build.bind_ok _ hi)

/-- **Folding a tree** gives places that denote the value of its formula. -/
theorem meets_fold (hA : A.Lawful one) (x : ParseTree)
    (hnames : ∀ id ∈ x.formula.names, id = [Byte.letterZ] ∨ id = [Byte.letterI]) :
    ∃ F : K → K → K × K, (∀ re im, x.formula.value A one re im = some (F re im)) ∧
      ∀ t : ValueTable, t.Sound → Meets A t (x.fold builder) fun c t' => DenotesPair A t' c F := by
  induction x with
  | number text =>
    refine ⟨fun _ _ => (A.constant text, A.zero), fun _ _ => rfl, fun t hs => meets_lift ?_⟩
    rw [← hA.constant_zero]
    exact constants_denote hs text [Byte.zero]
  | name id =>
    rcases hnames id (List.mem_singleton.2 rfl) with rfl | rfl
    · exact ⟨fun re im => (re, im), fun _ _ => rfl, fun t hs =>
        meets_lift ⟨⟨0, 1⟩, t, rfl, hs, ValueTable.Extends.refl t, denotesPair_argument hs⟩⟩
    · refine ⟨fun _ _ => (A.zero, one), fun _ _ => rfl, fun t hs => meets_lift ?_⟩
      rw [← hA.constant_zero, ← hA.constant_one]
      exact constants_denote hs [Byte.zero] [Byte.one]
  | operation op l r ihl ihr =>
    obtain ⟨F, hF, hl⟩ := ihl fun id hid => hnames id (List.mem_append_left _ hid)
    obtain ⟨G, hG, hr⟩ := ihr fun id hid => hnames id (List.mem_append_right _ hid)
    refine ⟨fun re im => A.complex op (F re im) (G re im), fun re im => ?_, fun t hs => ?_⟩
    · simp [ParseTree.formula, Formula.value, hF, hG]
    · have hkeeps : ∀ a b, KeepsNotes (builder.binary op a b) :=
        fun a b fold => ((Components.operation operate op a b).2 fold).adapt _
      have hrest : ∀ a, KeepsNotes (r.fold builder >>= builder.binary op a) :=
        fun a fold => (keepsNotes_fold r fold).bind fun b => hkeeps a b fold
      refine (hl t hs).bind hrest fun a t₁ hs₁ e₁ ha => ?_
      refine (hr t₁ hs₁).bind (hkeeps a) fun b t₂ hs₂ e₂ hb => ?_
      exact (meets_operation hA hs₂ op ⟨e₂ ha.1, e₂ ha.2⟩ hb).adapt _

end Watched

/-! ## Compilation -/

theorem ValueTable.sound_new : ValueTable.new.Sound where
  wellFormed := ValueTable.wellFormed_new
  meaningful := by
    intro i v hv
    have hlt : i < 2 := ValueTable.lt_size_of_getElem? hv
    have hkind : v.kind = .argument := by
      match i, hlt with
      | 0, _ => cases hv; rfl
      | 1, _ => cases hv; rfl
    simp only [Value.MeaningfulAt, hkind, hlt]

/-- Two places give a program that computes what they denote. -/
theorem ValueTable.call_of_denotes {A : Arithmetic K} {t : ValueTable} {a b : Ref} {f g : K → K → K} (hs : t.Sound)
    (ha : t.Denotes A a f) (hb : t.Denotes A b g) :
    ∃ p, t.toProgram a b = .ok p ∧ ∀ x y, p.call A x y = .ok (f x y, g x y) := by
  obtain ⟨i, rfl, hi⟩ := ValueTable.holds_iff.1 (ha.holds hs)
  obtain ⟨j, rfl, hj⟩ := ValueTable.holds_iff.1 (hb.holds hs)
  obtain ⟨p, hp, hcall⟩ := ValueTable.call_toProgram hs.meaningful hi hj
  refine ⟨p, hp, fun x y => ?_⟩
  obtain ⟨known, hknown⟩ := ValueTable.exists_evaluate hs.meaningful A x y
  obtain ⟨k, m, hk, hm, hrun⟩ := hcall A x y known hknown
  have hre := ha x y known hknown
  have him := hb x y known hknown
  rw [valueAt_natCast, hk] at hre
  rw [valueAt_natCast, hm] at him
  cases hre
  cases him
  exact hrun

/-- The places of a pair give a program that computes the pair. -/
theorem call_components {A : Arithmetic K} {t : ValueTable} {c : Components} {F : K → K → K × K} (hs : t.Sound)
    (hc : Watched.DenotesPair A t c F) :
    ∃ p, c.toProgram t = .ok p ∧ ∀ x y, p.call A x y = .ok (F x y) := by
  obtain ⟨p, hp, hcall⟩ := ValueTable.call_of_denotes hs hc.1 hc.2
  exact ⟨p, by rw [Components.toProgram, hp]; rfl, hcall⟩

/-- **Compilation is correct.** Over lawful numbers in which the folds performed while compiling are exact, a text whose
formula has no names but those of the argument and the imaginary unit has a program, and at every point the program
computes the value of the formula. -/
theorem compile_computes_value {A : Arithmetic K} {one : K} (hA : A.Lawful one) {text : Bytes} {x : Formula}
    (hparse : Formula.parse text = .ok x) (hnames : ∀ id ∈ x.names, id = [Byte.letterZ] ∨ id = [Byte.letterI])
    (hexact : ∀ fold ∈ foldsOf text, fold.Exact A) :
    ∃ p, compile text = .ok p ∧ ∀ re im, ∃ w, x.value A one re im = some w ∧ p.call A re im = .ok w := by
  rw [Formula.parse_eq] at hparse
  cases hverdict : (Scan.expression text).conclude text with
  | error verdict =>
    rw [hverdict] at hparse
    cases hparse
  | ok tree =>
    rw [hverdict] at hparse
    cases hparse
    obtain ⟨F, hF, hmeets⟩ := Watched.meets_fold hA tree hnames
    rw [foldsOf, drive_of_conclude hverdict] at hexact
    obtain ⟨c, t, folds, hrun, hs, -, hc⟩ := hmeets .new ValueTable.sound_new [] hexact
    have hplain := Watched.erases_fold tree .new []
    rw [hrun] at hplain
    obtain ⟨p, hp, hcall⟩ := call_components hs hc
    refine ⟨p, ?_, fun re im => ⟨F re im, hF re im, hcall re im⟩⟩
    rw [compile, drive_of_conclude hverdict, ← hplain]
    exact hp

/-! ## An instance

Rational numbers, in which a constant is exactly what its text says, are lawful. While `z-(1-2)` is compiled, one
difference is computed, and exactly. -/

def rational : Arithmetic Rat where
  zero := 0
  operate
    | .add => (· + ·)
    | .sub => (· - ·)
    | .mul => (· * ·)
    | .div => (· / ·)
  constant text :=
    match Numeral.form? text with
    | some (.scaled negative base coefficient exponent) =>
      (if negative then -1 else 1) * coefficient * (base : Rat) ^ exponent
    | _ => 0

theorem lawful_rational : rational.Lawful 1 where
  constant_zero := by decide +kernel
  constant_one := by decide +kernel
  zero_add := zero_add
  add_zero := add_zero
  sub_zero := sub_zero
  zero_mul := zero_mul
  mul_zero := mul_zero
  one_mul := one_mul
  mul_one := mul_one
  div_one := div_one

/-- The tree of `z-(1-2)`. -/
def shifted : ParseTree :=
  .operation .sub (.name [Byte.letterZ]) (.operation .sub (.number (bytes "1")) (.number (bytes "2")))

theorem conclude_shifted : (Scan.expression (bytes "z-(1-2)")).conclude (bytes "z-(1-2)") = .ok shifted := by cbv

/-- The table after the numbers of `shifted`. -/
def shiftedNumbers : ValueTable :=
  ((ValueTable.new.push (.constant (bytes "1"))).push (.constant (bytes "0"))).push (.constant (bytes "2"))

/-- One is at the place 2 and two at the place 4. Evaluation needs the kernel here, since numerals are read. -/
theorem reduce_shiftedNumbers : shiftedNumbers.reduce .sub 2 4 = .ok (.value (.constant (bytes "-1"))) := by
  have hfolded : ValueTable.simplified .sub 2 4 (.constant (bytes "1")) (.constant (bytes "2")) =
      .value (.constant (bytes "-1")) := by decide +kernel
  have hone : shiftedNumbers.get? 2 = some (.constant (bytes "1")) := rfl
  have htwo : shiftedNumbers.get? 4 = some (.constant (bytes "2")) := rfl
  rw [ValueTable.reduce_eq hone htwo, hfolded]

theorem foldsOf_shifted : foldsOf (bytes "z-(1-2)") = [⟨.sub, bytes "1", bytes "2"⟩] := by
  have hone : (ParseTree.number (bytes "1")).fold Watched.builder (.new, []) =
      (.ok ⟨2, 3⟩, (ValueTable.new.push (.constant (bytes "1"))).push (.constant (bytes "0")), []) := by cbv
  have htwo : (ParseTree.number (bytes "2")).fold Watched.builder
      ((ValueTable.new.push (.constant (bytes "1"))).push (.constant (bytes "0")), []) =
      (.ok ⟨4, 3⟩, shiftedNumbers, []) := by cbv
  have hre : (Watched.operate .sub 2 4).1 (shiftedNumbers, []) =
      (.ok 5, shiftedNumbers.push (.constant (bytes "-1")), [⟨.sub, bytes "1", bytes "2"⟩]) := by
    simp only [Watched.operate, ValueTable.operate, ValueTable.fold?, reduce_shiftedNumbers]
    cbv
  have him : (Watched.operate .sub 3 3).1
      (shiftedNumbers.push (.constant (bytes "-1")), [⟨.sub, bytes "1", bytes "2"⟩]) =
      (.ok 3, shiftedNumbers.push (.constant (bytes "-1")), [⟨.sub, bytes "1", bytes "2"⟩]) := by cbv
  have hinner : Watched.builder.binary .sub ⟨2, 3⟩ ⟨4, 3⟩ (shiftedNumbers, []) =
      (.ok ⟨5, 3⟩, shiftedNumbers.push (.constant (bytes "-1")), [⟨.sub, bytes "1", bytes "2"⟩]) :=
    Build.adapt_ok _ ((Build.bind_ok _ hre).trans (Build.bind_ok _ him))
  have houter : (Watched.builder.binary .sub ⟨0, 1⟩ ⟨5, 3⟩
      (shiftedNumbers.push (.constant (bytes "-1")), [⟨.sub, bytes "1", bytes "2"⟩])).2.2 =
      [⟨.sub, bytes "1", bytes "2"⟩] := by cbv
  have hz : (ParseTree.name [Byte.letterZ]).fold Watched.builder (.new, []) = (.ok ⟨0, 1⟩, .new, []) := rfl
  have hfold : shifted.fold Watched.builder (.new, []) =
      Watched.builder.binary .sub ⟨0, 1⟩ ⟨5, 3⟩
        (shiftedNumbers.push (.constant (bytes "-1")), [⟨.sub, bytes "1", bytes "2"⟩]) :=
    ParseTree.fold_operation_ok hz ((ParseTree.fold_operation_ok hone htwo).trans hinner)
  rw [foldsOf, drive_of_conclude conclude_shifted, hfold]
  exact houter

theorem compile_computes_value_shifted :
    foldsOf (bytes "z-(1-2)") = [⟨.sub, bytes "1", bytes "2"⟩] ∧
      ∃ p, compile (bytes "z-(1-2)") = .ok p ∧
        ∀ re im : Rat, ∃ w, shifted.formula.value rational 1 re im = some w ∧ p.call rational re im = .ok w := by
  have hparse : Formula.parse (bytes "z-(1-2)") = .ok shifted.formula := by
    rw [Formula.parse_eq, conclude_shifted]
  refine ⟨foldsOf_shifted, compile_computes_value lawful_rational hparse ?_ ?_⟩
  · decide
  · rw [foldsOf_shifted]
    intro fold hfold
    cases List.mem_singleton.1 hfold
    unfold Fold.Exact
    decide +kernel

end ComplexFormula
