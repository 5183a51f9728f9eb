import ComplexFormula.Proofs.Listing.Constants
import ComplexFormula.Proofs.ValueTable.NormalForm

/-!
# Listings read back as programs

A program that was compiled is printed as a function that reads back as the program: the same temporaries are assigned, in
the same order, and all expressions have the shape that they were printed from (`Recovers`). Expressions are printed with
all parentheses, so every operand is a factor, by induction on the expression; a program is printed line by line.
-/

namespace ComplexFormula

open Lexeme

namespace Source

variable {e l r : Expr} {t u : Tree} {w w' : Bytes}

/-! ## Expressions -/

section Expressions

/-- The tree has the shape of the expression, and its constants retain their values. -/
inductive Recovers : Expr → Tree → Prop
  | argument {i : Nat} {name : Bytes} (h : parameters[i]? = some name) : Recovers (.arg i name) (.parameter i)
  | constant {text : Bytes} {c : Constant} (h : Retains text c) : Recovers (.const text) (.constant c)
  | temporary (n : Nat) : Recovers (.temp n) (.temporary n)
  | operation (b : UInt8) {l r : Expr} {t u : Tree} (hl : Recovers l t) (hr : Recovers r u) :
      Recovers (.binary b l r) (.operation b t u)

/-- No divisor is a literal zero. -/
def Tree.DividesSafely : Tree → Prop
  | .parameter _ | .temporary _ | .constant _ => True
  | .operation b l r => l.DividesSafely ∧ r.DividesSafely ∧ (b = Byte.slash → r ≠ .constant (.literal 0))

/-- The expressions of compiled programs. -/
inductive Printable : Expr → Prop
  | argument {i : Nat} {name : Bytes} (h : parameters[i]? = some name) : Printable (.arg i name)
  | constant {text : Bytes} (h : Legible text) : Printable (.const text)
  | temporary (n : Nat) : Printable (.temp n)
  | operation (op : Operator) {l r : Expr} (hl : Printable l) (hr : Printable r) : Printable (.binary op.symbol l r)

theorem isFactor_parameter {i : Nat} {name : Bytes} (h : parameters[i]? = some name) : IsFactor name (.parameter i) := by
  rcases i with _ | _ | i
  · obtain rfl := Option.some.inj h
    exact isFactor_name (b := 114) (w := [101]) rfl (by decide +kernel) rfl
  · obtain rfl := Option.some.inj h
    exact isFactor_name (b := 105) (w := [109]) rfl (by decide +kernel) rfl
  · cases h

theorem temporaryName_natCast (n : Nat) : temporaryName n = Byte.letterT :: decimal n := by
  rw [temporaryName, decimalInt, if_neg (by omega), Int.natAbs_natCast]

theorem temporary?_temporaryName (n : Nat) : temporary? (temporaryName n) = some n := by
  have hdigits : (decimal n).all Byte.isDigit := List.all_eq_true.2 (digits_decimal n)
  have hhead : (decimal n).head? = some Byte.zero → (decimal n).length = 1 := by
    intro hhead
    by_cases hn : n = 0
    · subst hn
      rw [decimal]
      rfl
    · obtain ⟨d, ds, heq, hd⟩ := head_decimal hn
      rw [heq] at hhead
      exact absurd (Option.some.inj hhead) hd
  rw [temporaryName_natCast]
  show (if decimal n ≠ [] ∧ (decimal n).all Byte.isDigit ∧ ((decimal n).head? = some Byte.zero → (decimal n).length = 1)
    then some (digitsValue 10 (decimal n)) else none) = some n
  rw [if_pos ⟨decimal_ne_nil n, hdigits, hhead⟩, digitsValue_decimal]

theorem isWordByte_decimal (n : Nat) : ∀ c ∈ decimal n, isWordByte c = true := by
  intro c hc
  simp [isWordByte, digits_decimal n c hc]

theorem lexes_temporaryName (n : Nat) : Lexes (temporaryName n) [.word (temporaryName n)] := by
  rw [temporaryName_natCast]
  exact Lexes.word rfl (isWordByte_decimal n)

theorem isFactor_temporary (n : Nat) : IsFactor (temporaryName n) (.temporary n) := by
  have hparameter : parameters.idxOf? (temporaryName n) = none := by
    rw [List.idxOf?_eq_none_iff, temporaryName_natCast]
    intro hmem
    rcases List.mem_cons.1 hmem with h | h
    · exact absurd (List.cons.inj h).1 (by decide)
    · exact absurd (List.cons.inj (List.mem_singleton.1 h)).1 (by decide)
  have hnamed : named? (temporaryName n) = some (.temporary n) := by
    rw [named?, hparameter, temporary?_temporaryName]
    rfl
  rw [temporaryName_natCast] at hnamed ⊢
  exact isFactor_name rfl (isWordByte_decimal n) hnamed

/-- An operation, its operands being printed as factors. -/
theorem isExpression_operation (op : Operator)
    (hl : ∀ divisor, ∃ t, IsFactor (l.source true divisor) t ∧ Recovers l t ∧ t.DividesSafely ∧
      (divisor = true → t ≠ .constant (.literal 0)))
    (hr : ∀ divisor, ∃ t, IsFactor (r.source true divisor) t ∧ Recovers r t ∧ t.DividesSafely ∧
      (divisor = true → t ≠ .constant (.literal 0))) :
    ∃ t, IsExpression ((Expr.binary op.symbol l r).source false false) t ∧ Recovers (.binary op.symbol l r) t ∧
      t.DividesSafely ∧ ∀ c, t ≠ .constant c := by
  obtain ⟨t, ht, hrecovers, hsafe, -⟩ := hl false
  obtain ⟨u, hu, hrecovers', hsafe', hdivisor⟩ := hr (op.symbol = Operator.div.symbol)
  refine ⟨_, ht.operation hu op, .operation _ hrecovers hrecovers', ⟨hsafe, hsafe', fun hslash => ?_⟩, nofun⟩
  exact hdivisor (decide_eq_true hslash)

/-- **Every operand is printed as a factor** that reads back as it. -/
theorem Printable.isFactor (h : Printable e) (divisor : Bool) :
    ∃ t, IsFactor (e.source true divisor) t ∧ Recovers e t ∧ t.DividesSafely ∧
      (divisor = true → t ≠ .constant (.literal 0)) := by
  induction h generalizing divisor with
  | argument h => exact ⟨_, isFactor_parameter h, .argument h, trivial, nofun⟩
  | constant h =>
    obtain ⟨c, hfactor, hretains, hdivisor⟩ := isFactor_constant h divisor
    exact ⟨_, hfactor, .constant hretains, trivial, fun hd heq => hdivisor hd (Tree.constant.inj heq)⟩
  | temporary n => exact ⟨_, isFactor_temporary n, .temporary n, trivial, nofun⟩
  | operation op _ _ ihl ihr =>
    obtain ⟨t, ht, hrecovers, hsafe, hno⟩ := isExpression_operation op ihl ihr
    exact ⟨t, ht.parenthesize, hrecovers, hsafe, fun _ => hno _⟩

/-- Expressions read back where they stand alone. -/
theorem Printable.isExpression (h : Printable e) :
    ∃ t, IsExpression (e.source false false) t ∧ Recovers e t ∧ t.DividesSafely := by
  cases h with
  | operation op hl hr =>
    obtain ⟨t, ht, hrecovers, hsafe, -⟩ := isExpression_operation op hl.isFactor hr.isFactor
    exact ⟨t, ht, hrecovers, hsafe⟩
  | argument h => exact ⟨_, (isFactor_parameter h).isExpression, .argument h, trivial⟩
  | constant h =>
    obtain ⟨c, hfactor, hretains, -⟩ := isFactor_constant h false
    exact ⟨_, hfactor.isExpression, .constant hretains, trivial⟩
  | temporary n => exact ⟨_, (isFactor_temporary n).isExpression, .temporary n, trivial⟩

end Expressions

/-! ## Lines -/

section Lines

theorem isLines_assign (n : Nat) (h : IsExpression w t) :
    IsLines ([Byte.tab] ++ temporaryName n ++ bytes " := " ++ w ++ [Byte.lineFeed]) [.statement (.assign n t)] := by
  obtain ⟨ts, hts, hread, hline⟩ := h.isList.expressions?
  have hdefine : Lexes (colon :: Byte.equals :: Byte.space :: w) (.define :: ts) :=
    fun rest later hrest hlater => tokens_define ((hts.cons_blank (.inl rfl)) rest later hrest hlater)
  have hlexes := ((lexes_temporaryName n).append_blank hdefine).cons_blank (b := Byte.tab) (.inr rfl)
  have hname : temporaryName n ≠ bytes "return" := by
    rw [temporaryName_natCast]
    exact fun h => absurd (List.cons.inj h).1 (by decide)
  have hl : line? ([.word (temporaryName n)] ++ .define :: ts) = some (.statement (.assign n t)) := by
    simp [line?, hname, statement?, temporary?_temporaryName, hread]
  have hlines := isLines_line hlexes hl (by simpa using hline)
  simpa [show bytes " := " = [Byte.space, colon, Byte.equals, Byte.space] from rfl] using hlines

theorem isLines_mention (n : Nat) :
    IsLines (bytes "\t_ = " ++ temporaryName n ++ [Byte.lineFeed]) [.statement (.mention n)] := by
  have hblank : Lexes [Byte.underscore] [.word [Byte.underscore]] := Lexes.word rfl nofun
  have hlexes := (hblank.append_blank (((lexes_temporaryName n).cons_blank (.inl rfl)).cons_mark
    (b := Byte.equals) (by decide))).cons_blank (b := Byte.tab) (.inr rfl)
  have hstatement : statement? [Byte.underscore] [.mark Byte.equals, .word (temporaryName n)] =
      (temporary? (temporaryName n)).map .mention := rfl
  have hname : [Byte.underscore] ≠ bytes "return" := by decide
  have hmark : Byte.lineFeed ≠ Byte.equals := by decide
  refine isLines_line hlexes ?_ (by simp [hmark])
  simp [line?, hname, hstatement, temporary?_temporaryName]

theorem isLines_results (h : IsExpression w t) (h' : IsExpression w' u) :
    IsLines (bytes "\treturn " ++ w ++ bytes ", " ++ w' ++ [Byte.lineFeed]) [.results t u] := by
  obtain ⟨ts, hts, hread, hline⟩ := (h.isList.append h').expressions?
  have hreturn : Lexes (bytes "return") [.word (bytes "return")] :=
    Lexes.word (b := 114) (w := (bytes "return").tail) rfl (by decide +kernel)
  have hl : line? ([.word (bytes "return")] ++ ts) = some (.results t u) := by simp [line?, results?, hread]
  have hlines := isLines_line ((hreturn.append_blank hts).cons_blank (b := Byte.tab) (.inr rfl)) hl
    (by simpa using hline)
  simpa [show bytes "\treturn " = Byte.tab :: (bytes "return" ++ [Byte.space]) from rfl,
    show bytes ", " = [Byte.comma, Byte.space] from rfl] using hlines

theorem isLines_close : IsLines (bytes "\x7d\n") [.close] :=
  isLines_line (Lexes.nil.cons_mark (b := closeBrace) (by decide)) rfl (by decide)

end Lines

/-! ## Functions -/

section Functions

variable {p : Program}

/-- What is read of an assignment: the assignment, and a mention of the temporary if no result depends on it. -/
def Restates (needed : BitSet) (a : Assign) (ss : List Statement) : Prop :=
  ∃ (n : Nat) (t : Tree), a.temp = n ∧ Recovers a.expr t ∧ t.DividesSafely ∧
    ss = .assign n t :: if needed.contains n then [] else [.mention n]

theorem isLines_assignSource (needed : BitSet) {a : Assign} {n : Nat} (htemp : a.temp = n) (h : Printable a.expr) :
    ∃ ss, Restates needed a ss ∧ IsLines (Program.assignSource needed a) (ss.map .statement) := by
  obtain ⟨t, ht, hrecovers, hsafe⟩ := h.isExpression
  refine ⟨_, ⟨n, t, htemp, hrecovers, hsafe, rfl⟩, ?_⟩
  rw [Program.assignSource, htemp, Int.toNat_natCast]
  refine IsLines.append (isLines_assign n ht) ?_
  split
  · exact .nil
  · exact isLines_mention n

theorem isLines_assigns (needed : BitSet) {assigns : List Assign} (h : ∀ a ∈ assigns, (∃ n : Nat, a.temp = n) ∧ Printable a.expr) :
    ∃ sss, List.Forall₂ (Restates needed) assigns sss ∧
      IsLines (assigns.flatMap (Program.assignSource needed)) (sss.flatten.map .statement) := by
  induction assigns with
  | nil => exact ⟨[], .nil, .nil⟩
  | cons a assigns ih =>
    obtain ⟨⟨n, htemp⟩, hprintable⟩ := h a List.mem_cons_self
    obtain ⟨ss, hrestates, hlines⟩ := isLines_assignSource needed htemp hprintable
    obtain ⟨sss, hall, hlines'⟩ := ih fun b hb => h b (List.mem_cons_of_mem _ hb)
    refine ⟨ss :: sss, .cons hrestates hall, ?_⟩
    rw [List.flatMap_cons, List.flatten_cons, List.map_append]
    exact hlines.append hlines'

theorem ofLines?_statements (ss : List Statement) (re im : Tree) :
    Listing.ofLines? (ss.map .statement ++ [.results re im, .close]) = some ⟨ss, re, im⟩ := by
  induction ss with
  | nil => rfl
  | cons s ss ih =>
    rw [List.map_cons, List.cons_append, Listing.ofLines?, ih]
    rfl

theorem ofSource?_of_isLines {needed : BitSet} {ss : List Statement}
    (hlines : IsLines (p.assigns.flatMap (Program.assignSource needed)) (ss.map .statement))
    (hre : IsExpression (p.re.source false false) t) (him : IsExpression (p.im.source false false) u) (name : Bytes) :
    Listing.ofSource? name (p.functionSource needed name) = some ⟨ss, t, u⟩ := by
  have hbody := hlines.append ((isLines_results hre him).append isLines_close)
  rw [List.singleton_append] at hbody
  have hsource : p.functionSource needed name = Listing.header name ++ (p.assigns.flatMap (Program.assignSource needed) ++
      ((bytes "\treturn " ++ p.re.source false false ++ bytes ", " ++ p.im.source false false ++ [Byte.lineFeed]) ++
        bytes "\x7d\n")) := by
    rw [Program.functionSource, Listing.header,
      show bytes "\n\x7d\n" = [Byte.lineFeed] ++ bytes "\x7d\n" from rfl]
    simp only [List.append_assoc]
  rw [hsource, hbody.ofSource?, ofLines?_statements]

end Functions

end Source

/-! ## Constants of tables -/

section Tables

open Build Source

/-- The texts of the numbers in a formula. -/
def Formula.numbers : Formula → List Bytes
  | .hole | .name _ => []
  | .number text => [text]
  | .binary _ l r => l.numbers ++ r.numbers

namespace ValueTable

variable {P : Bytes → Prop} {v : Value}

/-- All constants have texts of some kind. -/
def ConstantsHave (P : Bytes → Prop) (t : ValueTable) : Prop := ∀ v ∈ t.values, v.kind = .constant → P v.text

/-- All constants are legible. -/
def Legible (t : ValueTable) : Prop := t.ConstantsHave Source.Legible

theorem constantsHave_new : new.ConstantsHave P := by
  intro v hv hk
  have hvalues : new.values = #[.argument (bytes "re"), .argument (bytes "im")] := rfl
  rw [hvalues] at hv
  simp only [List.mem_toArray, List.mem_cons, List.not_mem_nil, or_false] at hv
  rcases hv with rfl | rfl <;> cases hk

theorem keeps_constantsHave_intern (hv : v.kind = .constant → P v.text) : Keeps (ConstantsHave P) (intern v) := by
  intro t ht
  rcases intern_cases v t with ⟨i, -, h⟩ | ⟨-, -, h⟩ | ⟨-, -, h⟩
  · rwa [h]
  · rwa [h]
  · rw [h]
    intro u hu
    rcases Array.mem_push.1 hu with hu | rfl
    · exact ht u hu
    · exact hv

theorem keeps_constantsHave_constant {text : Bytes} (h : P text) : Keeps (ConstantsHave P) (constant text) :=
  keeps_constantsHave_intern fun _ => h

/-- Operations add constants that were written for values. -/
theorem keeps_constantsHave_operate (hwrite : ∀ x, P (Numeral.write x)) (op : Operator) (a b : Ref) :
    Keeps (ConstantsHave P) (operate op a b) := by
  intro t ht
  unfold operate
  split
  · exact ht
  · rename_i v hreduce
    refine keeps_constantsHave_intern (fun hk => ?_) t ht
    rcases reduce_value hreduce with rfl | ⟨x, rfl⟩
    · cases hk
    · exact hwrite x
  · exact ht

theorem legible_new : new.Legible := constantsHave_new

end ValueTable

theorem Numeral.write_zero : write .zero = [Byte.zero] := by decide +kernel

theorem Numeral.write_one : write (read [Byte.one]) = [Byte.one] := by decide +kernel

/-- **The constants that decomposition makes** are the numbers of the formula and what was written for values. -/
theorem Formula.keeps_constantsHave_decompose {P : Bytes → Prop} {x : Formula} (hwrite : ∀ v, P (Numeral.write v))
    (h : ∀ text ∈ x.numbers, P text) : Keeps (ValueTable.ConstantsHave P) x.decompose := by
  have hzero : P [Byte.zero] := Numeral.write_zero ▸ hwrite _
  have hone : P [Byte.one] := Numeral.write_one ▸ hwrite _
  induction x with
  | hole => exact keeps_throw _
  | number text =>
    refine Keeps.adapt ?_ _
    exact (ValueTable.keeps_constantsHave_constant (h text (List.mem_singleton.2 rfl))).bind fun _ =>
      (ValueTable.keeps_constantsHave_constant hzero).bind fun _ => keeps_pure _
  | name id =>
    rw [decompose, Components.name]
    split
    · exact keeps_pure _
    · split
      · refine Keeps.adapt ?_ _
        exact (ValueTable.keeps_constantsHave_constant hzero).bind fun _ =>
          (ValueTable.keeps_constantsHave_constant hone).bind fun _ => keeps_pure _
      · exact keeps_throw _
  | binary b l r ihl ihr =>
    refine (ihl fun text ht => h text (List.mem_append_left _ ht)).bind fun x =>
      (ihr fun text ht => h text (List.mem_append_right _ ht)).bind fun y => ?_
    cases Operator.ofSymbol? b with
    | some op => exact (Keeps.operation (ValueTable.keeps_constantsHave_operate hwrite) op x y).adapt _
    | none => exact keeps_throw _

/-- Decomposition makes legible constants only, given those of the formula. -/
theorem Formula.keeps_legible_decompose {x : Formula} (h : ∀ text ∈ x.numbers, Number text) :
    Keeps ValueTable.Legible x.decompose :=
  keeps_constantsHave_decompose (fun v => .inr ⟨v, rfl⟩) fun text ht => .inl (h text ht)

namespace ValueTable

variable {t : ValueTable} {named : List Nat} {r re im : Ref} {e : Expr} {p : Program}

/-- The first two entries are the parameters. -/
theorem WellFormed.parameter (h : t.WellFormed) {i : Nat} {v : Value} (hv : t.values[i]? = some v) (hi : i < 2) :
    parameters[i]? = some v.text := by
  rcases i with _ | _ | i
  · rw [h.real] at hv
    cases hv
    rfl
  · rw [h.imaginary] at hv
    cases hv
    rfl
  · omega

/-- What is emitted for a sound table can be printed. -/
theorem RefersTo.printable (ht : t.Sound) (hlegible : t.Legible) (he : t.RefersTo named r e) : Printable e := by
  induction he with
  | temporary => exact .temporary _
  | @argument i v hv hk =>
    have hplace := ht.meaningful i v hv
    rw [Value.MeaningfulAt, hk] at hplace
    exact .argument (ht.wellFormed.parameter hv hplace)
  | constant hv hk => exact .constant (hlegible _ (Array.mem_of_getElem? hv) hk)
  | @operation i v _ _ _ hv hk _ _ iha ihb =>
    have hmeaning := ht.meaningful i v hv
    rw [Value.MeaningfulAt, hk] at hmeaning
    obtain ⟨op, -, -, hop, -⟩ := hmeaning
    rw [hop]
    exact .operation op iha ihb

theorem printable_of_toProgram (ht : t.Sound) (hlegible : t.Legible) (hp : t.toProgram re im = .ok p) :
    (∀ a ∈ p.assigns, (∃ n : Nat, a.temp = n) ∧ Printable a.expr) ∧ Printable p.re ∧ Printable p.im := by
  have hemits := emits_of_toProgram ht.wellFormed hp
  refine ⟨fun a ha => ?_, hemits.re.printable ht hlegible, hemits.im.printable ht hlegible⟩
  obtain ⟨k, hk⟩ := List.mem_iff_getElem?.1 ha
  obtain ⟨htemp, i, v, -, hv, hbinary, x, y, heq, hx, hy⟩ := hemits.assign k a hk
  have hmeaning := ht.meaningful i v hv
  rw [Value.MeaningfulAt, hbinary] at hmeaning
  obtain ⟨op, -, -, hop, -⟩ := hmeaning
  rw [heq, hop]
  exact ⟨⟨k, htemp⟩, .operation op (hx.printable ht hlegible) (hy.printable ht hlegible)⟩

end ValueTable

end Tables

/-! ## Compiled programs -/

section Compiled

open Source

variable {text : Bytes} {x : Formula} {p : Program}

theorem Formula.Grammatical.number_of_mem (h : x.Grammatical) : ∀ text ∈ x.numbers, Number text := by
  induction h with
  | number h => exact fun _ hmem => List.mem_singleton.1 hmem ▸ h
  | name => exact nofun
  | binary _ _ _ ihl ihr =>
    intro text hmem
    rcases List.mem_append.1 hmem with hmem | hmem
    · exact ihl text hmem
    · exact ihr text hmem

/-- A text that has a program has a formula with the same program. -/
theorem exists_parse_of_compile (h : compile text = .ok p) :
    ∃ x : Formula, Formula.parse text = .ok x ∧ x.compile = .ok p := by
  cases hverdict : (Scan.expression text).conclude text with
  | error verdict =>
    rw [compile_of_malformed hverdict] at h
    cases h
  | ok tree =>
    have hcompile := compile_of_conclude hverdict
    split at hcompile
    · obtain ⟨c, t, p', -, hp, hp'⟩ := hcompile
      obtain rfl := Except.ok.inj (h.symm.trans hp)
      exact ⟨tree.formula, by rw [Formula.parse_eq, hverdict], hp'⟩
    · obtain ⟨t, -, hp, -⟩ := hcompile
      rw [hp] at h
      cases h

theorem exists_formula_of_compile (h : compile text = .ok p) : ∃ x : Formula, x.Grammatical ∧ x.compile = .ok p := by
  obtain ⟨x, hparse, hx⟩ := exists_parse_of_compile h
  exact ⟨x, Formula.grammatical_of_parse hparse, hx⟩

/-- The program of a text that is a number. -/
theorem compile_of_number {w : Bytes} (h : Number w) : compile w = .ok ⟨[], .const w, .const [Byte.zero], 0⟩ := by
  have hderives : DerivesText w (.number w) :=
    ⟨_, [], (List.append_nil _).symm, .term (.factor (.number blank_nil h)), blank_nil⟩
  obtain ⟨tree, htree, hverdict⟩ := hderives.conclude
  have hcompile := compile_of_conclude hverdict
  rw [htree] at hcompile
  obtain ⟨-, -, p', -, hp, hp'⟩ := hcompile
  rw [hp, ← hp', Formula.compile_number]

/-- A program of a formula with proper numbers can be printed. -/
theorem Formula.printable_of_compile (hx : ∀ text ∈ x.numbers, Number text) (h : x.compile = .ok p) :
    (∀ a ∈ p.assigns, (∃ n : Nat, a.temp = n) ∧ Printable a.expr) ∧ Printable p.re ∧ Printable p.im := by
  obtain ⟨c, t, hrun, hp⟩ := Formula.compile_eq_ok h
  obtain ⟨c', t', hrun', hsound, -⟩ := decompose_of_inoffensive ValueTable.sound_new (usable_of_compile h).1
  obtain ⟨-, rfl⟩ := Prod.mk.inj (hrun.symm.trans hrun')
  have hlegible := keeps_legible_decompose hx .new ValueTable.legible_new
  rw [hrun] at hlegible
  exact ValueTable.printable_of_toProgram hsound hlegible hp

theorem Program.Usable.appendSource?_eq (h : p.Usable) (onto name : Bytes) :
    ∃ needed, p.appendSource? onto name = some (onto ++ p.functionSource needed name) := by
  obtain ⟨source, hsource⟩ := h.source onto name
  unfold Program.appendSource? Program.function? at hsource ⊢
  cases hneeded : p.needed? with
  | none =>
    rw [hneeded] at hsource
    cases hsource
  | some needed =>
    rw [hneeded] at hsource
    by_cases hcomplete : p.isComplete
    · exact ⟨needed, by simp only [hcomplete, if_true, Option.map_some]⟩
    · simp [hcomplete] at hsource

/-- What is read of all assignments. -/
theorem assigns_flatten {needed : BitSet} {assigns : List Assign} {sss : List (List Statement)}
    (h : List.Forall₂ (Restates needed) assigns sss) (re im : Tree) :
    List.Forall₂ (fun a pair => a.temp = pair.1 ∧ Recovers a.expr pair.2 ∧ pair.2.DividesSafely) assigns
      (Listing.mk sss.flatten re im).assigns := by
  have hassigns : ∀ n t later, (Listing.mk ((.assign n t :: if needed.contains n then [] else [.mention n]) ++ later)
      re im).assigns = (n, t) :: (Listing.mk later re im).assigns := by
    intro n t later
    split <;> rfl
  induction h with
  | nil => exact .nil
  | cons hrestates _ ih =>
    obtain ⟨n, t, htemp, hrecovers, hsafe, rfl⟩ := hrestates
    rw [List.flatten_cons, hassigns]
    exact .cons ⟨htemp, hrecovers, hsafe⟩ ih

/-- **Listings read back as programs.** A program that was compiled from a text, or from a formula whose numbers are ones
that a text can have, is printed as a function. Reading the function gives back the assignments in their order, each with
its temporary, and both results: expressions of the same shape, without a literal zero as a divisor. Every constant is read
as its value, except that a number of more than eight hundred bytes is read as what it says, also where its value as a
constant leaves out some of its digits. -/
theorem listing_reads_back
    (h : (∃ text, compile text = .ok p) ∨ ∃ x : Formula, (∀ text ∈ x.numbers, Number text) ∧ x.compile = .ok p)
    (onto name : Bytes) :
    ∃ source l, p.appendSource? onto name = some (onto ++ source) ∧ Listing.ofSource? name source = some l ∧
      List.Forall₂ (fun a pair => a.temp = pair.1 ∧ Recovers a.expr pair.2 ∧ pair.2.DividesSafely) p.assigns l.assigns ∧
      (Recovers p.re l.re ∧ l.re.DividesSafely) ∧ Recovers p.im l.im ∧ l.im.DividesSafely := by
  have hformula : ∃ x : Formula, (∀ text ∈ x.numbers, Number text) ∧ x.compile = .ok p := by
    rcases h with ⟨text, htext⟩ | hx
    · obtain ⟨x, hgrammatical, hx⟩ := exists_formula_of_compile htext
      exact ⟨x, hgrammatical.number_of_mem, hx⟩
    · exact hx
  obtain ⟨x, hnumbers, hx⟩ := hformula
  obtain ⟨hassigns, hre, him⟩ := Formula.printable_of_compile hnumbers hx
  obtain ⟨needed, hsource⟩ := (Formula.usable_of_compile hx).2.appendSource?_eq onto name
  obtain ⟨sss, hall, hlines⟩ := isLines_assigns needed hassigns
  obtain ⟨re, hre, hreSource⟩ := hre.isExpression
  obtain ⟨im, him, himSource⟩ := him.isExpression
  exact ⟨_, _, hsource, ofSource?_of_isLines hlines hre him name, assigns_flatten hall re im, hreSource, himSource⟩

/-- A quotient of a number that looks octal. -/
def octalQuotient : Bytes := bytes "007/z"

theorem listing_reads_back_octalQuotient :
    ∃ p, compile octalQuotient = .ok p ∧ p.temps = 1 ∧ ∃ source l,
      p.appendSource? [] (bytes "f") = some ([] ++ source) ∧ Listing.ofSource? (bytes "f") source = some l ∧
      List.Forall₂ (fun a pair => a.temp = pair.1 ∧ Recovers a.expr pair.2 ∧ pair.2.DividesSafely) p.assigns l.assigns ∧
      (Recovers p.re l.re ∧ l.re.DividesSafely) ∧ Recovers p.im l.im ∧ l.im.DividesSafely := by
  have hp : (compile octalQuotient).toOption.map (·.temps) = some 1 := by cbv
  cases hcompile : compile octalQuotient with
  | error why =>
    rw [hcompile] at hp
    cases hp
  | ok p =>
    rw [hcompile] at hp
    exact ⟨p, rfl, Option.some.inj hp, listing_reads_back (.inl ⟨octalQuotient, hcompile⟩) [] (bytes "f")⟩

/-! ### Overlong literals -/

def overlongParts : Parts := ⟨bytes "9007199254740993" ++ List.replicate 784 Byte.zero ++ [Byte.one], [], true, bytes "785"⟩

/-- A number a little above the middle of two values, with all its digits before the point. -/
def overlongNumeral : Bytes := overlongParts.whole ++ bytes "e-785"

theorem spelled_overlongNumeral : Spelled overlongParts overlongNumeral := by
  have hwhole : Digits overlongParts.whole :=
    Digits.append (Digits.append (List.all_eq_true.1 rfl) (Numeral.digits_replicate 784)) (List.all_eq_true.1 rfl)
  have hpower : Digits overlongParts.power := List.all_eq_true.1 rfl
  exact .mk (.whole hwhole (List.cons_ne_nil _ _) rfl) (.present (.inl rfl) (.inl rfl) hpower (List.cons_ne_nil _ _))

/-- One of the 801 digits before the point is not counted as a place. -/
theorem not_isNearest_overlongNumeral {negative : Bool} {m : Magnitude}
    (hread : Numeral.read overlongNumeral = .number negative m) : ¬Magnitude.IsNearest overlongParts.toRat m := by
  have hpower : overlongParts.exponent - overlongParts.fraction.length = -785 := by decide +kernel
  have hexact := Magnitude.ofScaled_isNearest (show 0 < 10 by norm_num) overlongParts.coefficient (-785)
  have hdiffer : ∀ negative, Numeral.read overlongNumeral ≠
      .number negative (.ofScaled 10 overlongParts.coefficient (-785)) := by decide +kernel
  intro hnearest
  rw [Parts.toRat, hpower] at hnearest
  rw [Nat.cast_ofNat] at hexact
  rw [hnearest.unique hexact] at hread
  exact hdiffer _ hread

/-- **An overlong literal is read as another value** than the constant has. -/
theorem listing_misreads_overlongNumeral :
    ∃ p source l c, compile overlongNumeral = .ok p ∧ p.re = .const overlongNumeral ∧
      p.appendSource? [] (bytes "f") = some source ∧ Listing.ofSource? (bytes "f") source = some l ∧
      l.re = .constant c ∧ ¬c.Denotes (Numeral.read overlongNumeral) := by
  have hp := compile_of_number spelled_overlongNumeral.number
  have husable := (Formula.usable_of_compile (Formula.compile_number overlongNumeral)).2
  obtain ⟨needed, hsource⟩ := husable.appendSource?_eq [] (bytes "f")
  have hdecimal : ¬IsOctal overlongNumeral := fun h => absurd h.2.1 (by decide +kernel)
  have hform : ConstantForm.of overlongNumeral false = .literal overlongNumeral := by decide +kernel
  have hzero : ConstantForm.of [Byte.zero] false = .literal [Byte.zero] := by decide +kernel
  have hre : IsExpression ((Expr.const overlongNumeral).source false false)
      (.constant (.literal overlongParts.toRat)) := by
    rw [Expr.source, hform]
    exact (isFactor_literal spelled_overlongNumeral (value?_of_decimal spelled_overlongNumeral hdecimal)
      false).isExpression
  have him : IsExpression ((Expr.const [Byte.zero]).source false false) (.constant (.literal 0)) := by
    rw [Expr.source, hzero]
    exact isFactor_zero.isExpression
  have hlines : IsLines (([] : List Assign).flatMap (Program.assignSource needed))
      (([] : List Statement).map .statement) := .nil
  have hlisting := ofSource?_of_isLines (p := ⟨[], .const overlongNumeral, .const [Byte.zero], 0⟩) hlines hre him (bytes "f")
  refine ⟨_, _, _, _, hp, rfl, hsource, hlisting, rfl, ?_⟩
  rintro ⟨m, hnearest, -, hread⟩
  have hnonneg : 0 ≤ overlongParts.toRat := mul_nonneg (Nat.cast_nonneg _) (zpow_nonneg (by norm_num) _)
  rw [abs_of_nonneg hnonneg] at hnearest
  exact not_isNearest_overlongNumeral hread hnearest

end Compiled

end ComplexFormula
