import ComplexFormula.Program.Listing
import ComplexFormula.Proofs.Grammar.ViablePrefix
import ComplexFormula.Proofs.Program.Structure
import ComplexFormula.Proofs.Streaming

/-!
# Compilation fails only for reasons in the formula

A formula that has no program has something in it that stands for nothing: a subtree is missing, a name is undefined or
a byte is no operator. The first of these in post-order is the error (`Formula.decompose_of_offence`). All other formulas
have programs, and such a program can be used in every way (`Program.Usable`): it passes the check, it runs at every
point, and it can be printed.

The errors of emission, of running and of printing do not come up then, since every table that decomposition makes is
sound. From a text, even the errors of the formula come down to undefined names.
-/

namespace ComplexFormula

/-! ## Printing -/

namespace Expr

/-- Temporaries from 0 on can be collected. -/
theorem exists_collect {e : Expr} (h : ∀ n ∈ e.temporaries, 0 ≤ n) (needed : BitSet) :
    ∃ needed', e.collect needed = some needed' := by
  induction e generalizing needed with
  | missing | arg | const => exact ⟨needed, rfl⟩
  | temp n =>
    have hn : 0 ≤ n := h n (List.mem_singleton.2 rfl)
    exact ⟨needed.insert n.toNat, by rw [collect, BitSet.insert?, if_pos hn]⟩
  | binary b l r ihl ihr =>
    obtain ⟨needed₁, hl⟩ := ihl (fun n hn => h n (List.mem_append_left _ hn)) needed
    obtain ⟨needed₂, hr⟩ := ihr (fun n hn => h n (List.mem_append_right _ hn)) needed₁
    exact ⟨needed₂, by simp [collect, hl, hr]⟩

theorem isComplete_of_check {e : Expr} (h : e.check = .ok ()) : e.isComplete := by
  induction e with
  | missing => cases h
  | arg | const | temp => rfl
  | binary b l r ihl ihr =>
    cases hl : l.check with
    | error fault => simp [check, hl, bind, Except.bind] at h
    | ok =>
      cases hr : r.check with
      | error fault => simp [check, hl, hr, bind, Except.bind] at h
      | ok => simp [isComplete, ihl hl, ihr hr]

end Expr

namespace Program

variable {p : Program}

theorem check_inv (h : p.check = .ok ()) :
    (∀ a ∈ p.assigns, a.expr.check = .ok ()) ∧ p.re.check = .ok () ∧ p.im.check = .ok () := by
  have hall : ∀ assigns : List Assign, (assigns.forM fun a => a.expr.check) = .ok () →
      ∀ a ∈ assigns, a.expr.check = .ok () := by
    intro assigns hassigns
    induction assigns with
    | nil => exact nofun
    | cons a assigns ih =>
      rw [List.forM] at hassigns
      cases ha : a.expr.check with
      | error fault => simp [ha, bind, Except.bind] at hassigns
      | ok =>
        simp only [ha, bind, Except.bind] at hassigns
        intro b hb
        rcases List.mem_cons.1 hb with rfl | hb
        · exact ha
        · exact ih hassigns b hb
  cases hassigns : p.assigns.forM fun a => a.expr.check with
  | error fault => simp [check, hassigns, bind, Except.bind] at h
  | ok =>
    cases hre : p.re.check with
    | error fault => simp [check, hassigns, hre, bind, Except.bind] at h
    | ok => exact ⟨hall _ hassigns, rfl, by simpa [check, hassigns, hre, bind, Except.bind] using h⟩

theorem isComplete_of_programCheck (h : p.check = .ok ()) : p.isComplete := by
  obtain ⟨hassigns, hre, him⟩ := check_inv h
  simp only [isComplete, Bool.and_eq_true, List.all_eq_true]
  exact ⟨⟨fun a ha => Expr.isComplete_of_check (hassigns a ha), Expr.isComplete_of_check hre⟩, Expr.isComplete_of_check him⟩

theorem exists_collect_assign {a : Assign} (htemp : 0 ≤ a.temp) (hexpr : ∀ n ∈ a.expr.temporaries, 0 ≤ n)
    (needed : BitSet) : ∃ needed', a.collect needed = some needed' := by
  have hcontains : needed.contains? a.temp = some (needed.contains a.temp.toNat) := by
    rw [BitSet.contains?, if_pos htemp]
  by_cases hc : needed.contains a.temp.toNat
  · obtain ⟨needed', hcollect⟩ := Expr.exists_collect hexpr needed
    exact ⟨needed', by simp [Assign.collect, hcontains, hc, hcollect]⟩
  · exact ⟨needed, by simp [Assign.collect, hcontains, hc]⟩

/-- What a program depends on can be found if it has as many assignments as temporaries, all from 0 on. -/
theorem exists_needed (htemps : p.temps ≤ p.assigns.length)
    (hassigns : ∀ a ∈ p.assigns, 0 ≤ a.temp ∧ ∀ n ∈ a.expr.temporaries, 0 ≤ n) (hre : ∀ n ∈ p.re.temporaries, 0 ≤ n)
    (him : ∀ n ∈ p.im.temporaries, 0 ≤ n) : ∃ needed, p.needed? = some needed := by
  have hall : ∀ (assigns : List Assign) (needed : BitSet),
      (∀ a ∈ assigns, 0 ≤ a.temp ∧ ∀ n ∈ a.expr.temporaries, 0 ≤ n) →
      ∃ needed', assigns.foldlM Assign.collect needed = some needed' := by
    intro assigns
    induction assigns with
    | nil => exact fun needed _ => ⟨needed, rfl⟩
    | cons a assigns ih =>
      intro needed h
      obtain ⟨htemp, hexpr⟩ := h a List.mem_cons_self
      obtain ⟨collected, hcollect⟩ := exists_collect_assign htemp hexpr needed
      obtain ⟨needed', hneeded⟩ := ih collected fun b hb => h b (List.mem_cons_of_mem _ hb)
      exact ⟨needed', by rw [List.foldlM_cons, hcollect]; exact hneeded⟩
  obtain ⟨needed₁, hneeded₁⟩ := Expr.exists_collect hre (.withRoom p.temps)
  obtain ⟨needed₂, hneeded₂⟩ := Expr.exists_collect him needed₁
  obtain ⟨needed₃, hneeded₃⟩ := hall p.assigns.reverse needed₂ fun a ha => hassigns a (List.mem_reverse.1 ha)
  exact ⟨needed₃, by simp only [needed?, room?, if_pos htemps, Option.bind_eq_bind, Option.bind_some, hneeded₁, hneeded₂,
    hneeded₃]⟩

/-- Nothing stands in the way of using the program. -/
structure Usable (p : Program) : Prop where
  check : p.check = .ok ()
  run : ∀ x y, ∃ w, p.run binary64 x y = .ok w
  source : ∀ onto name, ∃ text, p.appendSource? onto name = some text
  file : ∀ onto package name, ∃ text, p.appendFile? onto package name = some text

theorem exists_function (hcheck : p.check = .ok ()) {needed : BitSet} (hneeded : p.needed? = some needed) (name : Bytes) :
    p.function? name = some (p.functionSource needed name) := by
  simp only [function?, hneeded, isComplete_of_programCheck hcheck, if_true]

end Program

namespace ValueTable

variable {t : ValueTable} {re im : Ref} {p : Program}

/-- The temporaries of an emitted program are numbered from 0 on. -/
theorem exists_needed_of_toProgram (h : t.WellFormed) (hp : t.toProgram re im = .ok p) :
    ∃ needed, p.needed? = some needed := by
  have hemits := emits_of_toProgram h hp
  have hresult : ∀ {r : Ref} {e : Expr}, t.RefersTo (t.sharedOperations re im) r e → ∀ n ∈ e.temporaries, 0 ≤ n :=
    fun he n hn => ((he.mentionsUpTo h).lt_length hn).1
  refine Program.exists_needed hemits.temps.le (fun a ha => ?_) (hresult hemits.re) (hresult hemits.im)
  obtain ⟨k, hk⟩ := List.mem_iff_getElem?.1 ha
  obtain ⟨htemp, i, v, hi, hv, hbinary, hout⟩ := hemits.assign k a hk
  refine ⟨by rw [htemp]; exact Int.natCast_nonneg k, fun n hn => ?_⟩
  exact (hout.lt_place h (t.pairwise_sharedOperations re im) hi hv hbinary hn).1

/-- **Emitted programs are usable.** -/
theorem usable_of_toProgram (ht : t.Sound) (hp : t.toProgram re im = .ok p) : p.Usable := by
  obtain ⟨hre, him, -⟩ := toProgram_inv hp
  obtain ⟨i, rfl, hi⟩ := holds_iff.1 hre
  obtain ⟨j, rfl, hj⟩ := holds_iff.1 him
  obtain ⟨p', hp', hcall⟩ := call_toProgram ht.meaningful hi hj
  rw [hp] at hp'
  cases hp'
  have hruns : ∀ x y, p.check = .ok () ∧ ∃ w, p.run binary64 x y = .ok w := by
    intro x y
    obtain ⟨known, hknown⟩ := exists_evaluate ht.meaningful binary64 x y
    obtain ⟨a, b, -, -, hresult⟩ := hcall binary64 x y known hknown
    cases hcheck : p.check with
    | error fault => simp [Program.call, hcheck, bind, Except.bind] at hresult
    | ok => exact ⟨rfl, (a, b), by simpa [Program.call, hcheck, bind, Except.bind] using hresult⟩
  have hcheck := (hruns .zero .zero).1
  obtain ⟨needed, hneeded⟩ := exists_needed_of_toProgram ht.wellFormed hp
  refine ⟨hcheck, fun x y => (hruns x y).2, fun onto name => ?_, fun onto package name => ?_⟩
  · exact ⟨_, by rw [Program.appendSource?, Program.exists_function hcheck hneeded, Option.map_some]⟩
  · exact ⟨_, by rw [Program.appendFile?, Program.exists_function hcheck hneeded, Option.map_some]⟩

end ValueTable

theorem Components.usable_of_toProgram {c : Components} {t : ValueTable} {p : Program} (ht : t.Sound)
    (hp : c.toProgram t = .ok p) : p.Usable := by
  unfold Components.toProgram at hp
  cases hprogram : t.toProgram c.re c.im with
  | error e =>
    rw [hprogram] at hp
    cases hp
  | ok p' =>
    rw [hprogram] at hp
    cases hp
    exact ValueTable.usable_of_toProgram ht hprogram

/-! ## Formulas -/

namespace Formula

/-- The nodes of a formula, operands from left to right before their operator. -/
def nodes : Formula → List Formula
  | .hole => [.hole]
  | .number text => [.number text]
  | .name id => [.name id]
  | .binary b l r => l.nodes ++ r.nodes ++ [.binary b l r]

/-- The bytes that are operators. -/
def operatorBytes : Bytes := [Byte.plus, Byte.minus, Byte.star, Byte.slash]

/-- What is wrong with a node by itself. -/
def offence? : Formula → Option DecompositionError
  | .hole => some .missing
  | .number _ => none
  | .name id => if id = [Byte.letterZ] ∨ id = [Byte.letterI] then none else some (.undefined id)
  | .binary b _ _ => if b ∈ operatorBytes then none else some (.unsupportedOperator b)

/-- The first thing that is wrong with a formula. -/
def firstOffence? (x : Formula) : Option DecompositionError := x.nodes.findSome? offence?

variable {b : UInt8} {l r x : Formula} {t : ValueTable} {e : DecompositionError}

theorem mem_operatorBytes_iff : b ∈ operatorBytes ↔ ∃ op : Operator, op.symbol = b := by
  constructor
  · intro h
    simp only [operatorBytes, List.mem_cons, List.not_mem_nil, or_false] at h
    rcases h with rfl | rfl | rfl | rfl
    · exact ⟨.add, rfl⟩
    · exact ⟨.sub, rfl⟩
    · exact ⟨.mul, rfl⟩
    · exact ⟨.div, rfl⟩
  · rintro ⟨op, rfl⟩
    cases op <;> decide

theorem firstOffence?_binary : (Formula.binary b l r).firstOffence? =
    (l.firstOffence?.or r.firstOffence?).or (offence? (.binary b l r)) := by
  simp [firstOffence?, nodes, List.findSome?_append, Option.or_assoc]

/-- A formula with nothing wrong in it could have been read. -/
theorem exists_parseTree (h : x.firstOffence? = none) :
    ∃ tree : ParseTree, tree.formula = x ∧ undefined? x.names = none := by
  induction x with
  | hole => cases h
  | number text => exact ⟨.number text, rfl, rfl⟩
  | name id =>
    by_cases hid : id = [Byte.letterZ] ∨ id = [Byte.letterI]
    · exact ⟨.name id, rfl, undefined?_eq_none_iff.2 fun id' hid' => List.mem_singleton.1 hid' ▸ hid⟩
    · simp [firstOffence?, nodes, offence?, hid] at h
  | binary b l r ihl ihr =>
    rw [firstOffence?_binary, Option.or_eq_none_iff, Option.or_eq_none_iff] at h
    obtain ⟨⟨hl, hr⟩, hb⟩ := h
    obtain ⟨left, rfl, hleft⟩ := ihl hl
    obtain ⟨right, rfl, hright⟩ := ihr hr
    have hmem : b ∈ operatorBytes := by
      refine Classical.byContradiction fun hmem => ?_
      rw [offence?, if_neg hmem] at hb
      cases hb
    obtain ⟨op, rfl⟩ := mem_operatorBytes_iff.1 hmem
    refine ⟨.operation op left right, rfl, ?_⟩
    · rw [names, undefined?_append, hleft, hright]
      rfl

/-- **Nothing else goes wrong** when a formula is decomposed. -/
theorem decompose_of_inoffensive (ht : t.Sound) (h : x.firstOffence? = none) :
    ∃ c t', x.decompose t = (.ok c, t') ∧ t'.Sound ∧ ∃ p, c.toProgram t' = .ok p := by
  obtain ⟨tree, rfl, hnames⟩ := exists_parseTree h
  rw [← ParseTree.fold_componentsBuilder]
  exact tree.fold_of_defined ht hnames

/-- **The first offence** is the error. -/
theorem decompose_of_offence (ht : t.Sound) (h : x.firstOffence? = some e) :
    ∃ t', x.decompose t = (.error e, t') := by
  induction x generalizing t with
  | hole =>
    cases h
    exact ⟨t, rfl⟩
  | number text => cases h
  | name id =>
    by_cases hid : id = [Byte.letterZ] ∨ id = [Byte.letterI]
    · simp [firstOffence?, nodes, offence?, hid] at h
    · simp only [firstOffence?, nodes, List.findSome?_cons, offence?, if_neg hid, Option.some.injEq] at h
      subst h
      obtain ⟨hz, hi⟩ := not_or.1 hid
      exact ⟨t, by rw [decompose, Components.name, if_neg hz, if_neg hi]; rfl⟩
  | binary b l r ihl ihr =>
    rw [firstOffence?_binary] at h
    cases hl : l.firstOffence? with
    | some e' =>
      rw [hl] at h
      cases h
      obtain ⟨t', hrun⟩ := ihl ht hl
      exact ⟨t', by rw [decompose]; exact Build.bind_error _ hrun⟩
    | none =>
      obtain ⟨c, t₁, hleft, ht₁, -⟩ := decompose_of_inoffensive ht hl
      cases hr : r.firstOffence? with
      | some e' =>
        rw [hl, hr] at h
        cases h
        obtain ⟨t', hrun⟩ := ihr ht₁ hr
        exact ⟨t', by rw [decompose, Build.bind_ok _ hleft]; exact Build.bind_error _ hrun⟩
      | none =>
        obtain ⟨c', t₂, hright, -⟩ := decompose_of_inoffensive ht₁ hr
        rw [hl, hr] at h
        by_cases hmem : b ∈ operatorBytes
        · simp [offence?, hmem] at h
        · simp only [offence?, if_neg hmem, Option.or_some, Option.or_none, Option.some.injEq] at h
          subst h
          have hnone : Operator.ofSymbol? b = none := by
            rw [Option.eq_none_iff_forall_ne_some]
            exact fun op hop => hmem (mem_operatorBytes_iff.2 ⟨op, Operator.symbol_of_ofSymbol? hop⟩)
          refine ⟨t₂, ?_⟩
          rw [decompose, Build.bind_ok _ hleft, Build.bind_ok _ hright, hnone]
          rfl

theorem firstOffence?_isSome_iff : x.firstOffence?.isSome ↔
    ∃ y ∈ x.nodes, y = .hole ∨ (∃ b l r, y = .binary b l r ∧ b ∉ operatorBytes) ∨
      ∃ id, y = .name id ∧ id ≠ [Byte.letterZ] ∧ id ≠ [Byte.letterI] := by
  rw [firstOffence?, List.findSome?_isSome_iff]
  refine exists_congr fun y => and_congr_right fun _ => ?_
  cases y with
  | hole => simp [offence?]
  | number text => simp [offence?]
  | name id => by_cases hid : id = [Byte.letterZ] ∨ id = [Byte.letterI] <;> simp [offence?, hid] <;> tauto
  | binary b l r => by_cases hb : b ∈ operatorBytes <;> simp [offence?, hb]

/-- A formula with an offence has that error, and one without has a usable program. -/
theorem compile_eq (x : Formula) :
    match x.firstOffence? with
    | some e => x.compile = .error (.decomposition e)
    | none => ∃ p, x.compile = .ok p ∧ p.Usable := by
  split
  · rename_i e he
    obtain ⟨t, hrun⟩ := decompose_of_offence ValueTable.sound_new he
    exact compile_of_decompose_error hrun
  · rename_i hnone
    obtain ⟨c, t, hrun, ht, p, hp⟩ := decompose_of_inoffensive ValueTable.sound_new hnone
    exact ⟨p, by rw [compile_of_decompose hrun, hp], Components.usable_of_toProgram ht hp⟩

theorem usable_of_compile {p : Program} (h : x.compile = .ok p) : x.firstOffence? = none ∧ p.Usable := by
  have hoffence := x.compile_eq
  split at hoffence
  · rw [h] at hoffence
    cases hoffence
  · rename_i hnone
    obtain ⟨p', hp', husable⟩ := hoffence
    obtain rfl := Except.ok.inj (h.symm.trans hp')
    exact ⟨hnone, husable⟩

end Formula

/-- **Compilation fails for its reasons only.** A formula has no program if and only if something in it is missing, no
operator or undefined, and the first of these is the error. A text is malformed, or has an undefined name in it, or has
a program. Every program can be run at all points and printed. -/
theorem compile_fails_for_reasons_only :
    (∀ x : Formula,
      ((∃ e, x.compile = .error e) ↔ ∃ y ∈ x.nodes, y = .hole ∨
        (∃ b l r, y = .binary b l r ∧ b ∉ Formula.operatorBytes) ∨
        ∃ id, y = .name id ∧ id ≠ [Byte.letterZ] ∧ id ≠ [Byte.letterI]) ∧
      match x.firstOffence? with
      | some e => x.compile = .error (.decomposition e)
      | none => ∃ p, x.compile = .ok p ∧ p.Usable) ∧
    ∀ text : Bytes,
      (∃ p, compile text = .ok p ∧ p.Usable) ∨
      (∃ position why, compile text = .error (.rejected (.malformed position why)) ∧ why.cause.Textual) ∨
      ∃ id, compile text = .error (.rejected (.refused (.undefined id))) := by
  refine ⟨fun x => ⟨?_, x.compile_eq⟩, fun text => ?_⟩
  · rw [← Formula.firstOffence?_isSome_iff]
    have hcompile := x.compile_eq
    split at hcompile
    · rename_i e he
      simp [he, hcompile]
    · rename_i hnone
      obtain ⟨p, hp, -⟩ := hcompile
      simp [hnone, hp]
  · cases hverdict : (Scan.expression text).conclude text with
    | ok tree =>
      have hcompile := compile_of_conclude hverdict
      split at hcompile
      · obtain ⟨c, t, p, -, hp, hp'⟩ := hcompile
        exact .inl ⟨p, hp, (Formula.usable_of_compile hp').2⟩
      · obtain ⟨t, -, hp, -⟩ := hcompile
        exact .inr (.inr ⟨_, hp⟩)
    | error verdict =>
      obtain ⟨position, why⟩ := verdict
      obtain ⟨-, htextual, -⟩ := Scan.exists_completion hverdict
      have hcompile := compile_of_malformed hverdict
      split at hcompile
      · exact .inr (.inl ⟨position, _, hcompile, htextual.lift⟩)
      · exact .inr (.inr ⟨_, hcompile⟩)

end ComplexFormula
