import ComplexFormula.Proofs.Listing.Words
import ComplexFormula.Proofs.Program.Liveness
import Mathlib

/-!
# Listings obey the rules for variables

Go refuses a function that declares a variable twice, mentions one before its declaration or never uses one, and a file
that imports a package for nothing. What is printed has just these lines: a declaration for every temporary, a mention
behind those that no result depends on, and the results (`bodyLines_cases`). All rules are read off from there.
-/

namespace ComplexFormula

namespace Source

variable {e : Expr}

/-! ## Lines -/

section Lines

variable {needed : BitSet} {a : Assign} {assigns : List Assign}

def declarationLine (a : Assign) : Bytes := [Byte.tab] ++ temporaryName a.temp ++ bytes " := " ++ a.expr.source false false

/-- The line that uses a temporary for no other reason. -/
def mentionLine (n : Int) : Bytes := bytes "\t_ = " ++ temporaryName n

def resultLine (p : Program) : Bytes := bytes "\treturn " ++ p.re.source false false ++ bytes ", " ++ p.im.source false false

/-- The lines of an assignment. -/
def assignLines (needed : BitSet) (a : Assign) : List Bytes :=
  declarationLine a :: if needed.contains a.temp.toNat then [] else [mentionLine a.temp]

/-- The lines of a function after its head, the last one being empty. -/
def bodyLines (p : Program) (needed : BitSet) : List Bytes :=
  p.assigns.flatMap (assignLines needed) ++ [resultLine p, [closeBrace], []]

/-- What is printed of a function after its head. -/
def body (p : Program) (needed : BitSet) : Bytes :=
  p.assigns.flatMap (Program.assignSource needed) ++ (resultLine p ++ bytes "\n\x7d\n")

theorem functionSource_eq (p : Program) (needed : BitSet) (name : Bytes) :
    p.functionSource needed name = Listing.header name ++ body p needed := by
  simp only [Program.functionSource, Listing.header, body, resultLine, List.append_assoc]

/-! ### The words of a line -/

theorem words_declarationLine {n : Nat} (htemp : a.temp = n) :
    words (declarationLine a) = temporaryName n :: words (a.expr.source false false) := by
  have hline : declarationLine a = Byte.tab :: (temporaryName n ++ Byte.space :: colon :: Byte.equals :: Byte.space ::
      a.expr.source false false) := by
    rw [declarationLine, htemp, show bytes " := " = [Byte.space, colon, Byte.equals, Byte.space] from rfl]
    simp
  rw [hline, words_cons _ rfl, words_append_cons _ _ rfl, words_cons _ rfl, words_cons _ rfl, words_cons _ rfl,
    words_temporaryName]
  rfl

theorem declared?_declarationLine {n : Nat} (htemp : a.temp = n) :
    declared? (declarationLine a) = some (temporaryName n) := by
  rw [declared?, words_declarationLine htemp, List.head?_cons, Option.filter_some_eq_some, List.isPrefixOf_iff_prefix,
    declarationLine, htemp]
  exact List.prefix_append _ _

theorem usedWords_declarationLine {n : Nat} (htemp : a.temp = n) :
    usedWords (declarationLine a) = words (a.expr.source false false) := by
  rw [usedWords, declared?_declarationLine htemp, words_declarationLine htemp]
  rfl

theorem words_mentionLine (n : Nat) : words (mentionLine n) = [[Byte.underscore], temporaryName n] := by
  have hname : words (Byte.equals :: Byte.space :: temporaryName n) = [temporaryName n] := by
    rw [words_cons _ rfl, words_cons _ rfl, words_temporaryName]
  show words (Byte.tab :: ([Byte.underscore] ++ Byte.space :: Byte.equals :: Byte.space :: temporaryName n)) = _
  rw [words_cons _ rfl, words_append_cons _ _ rfl, hname]
  rfl

theorem declared?_mentionLine (n : Nat) : declared? (mentionLine n) = none := by
  rw [declared?, words_mentionLine]
  rfl

theorem usedWords_mentionLine (n : Nat) : usedWords (mentionLine n) = [[Byte.underscore], temporaryName n] := by
  rw [usedWords, declared?_mentionLine, words_mentionLine]
  rfl

theorem resultLine_eq (p : Program) : resultLine p = Byte.tab :: (bytes "return" ++ Byte.space ::
    (p.re.source false false ++ Byte.comma :: Byte.space :: p.im.source false false)) := by
  rw [resultLine, show bytes "\treturn " = Byte.tab :: (bytes "return" ++ [Byte.space]) from rfl,
    show bytes ", " = [Byte.comma, Byte.space] from rfl]
  simp

theorem words_resultLine (p : Program) :
    words (resultLine p) = bytes "return" :: (words (p.re.source false false) ++ words (p.im.source false false)) := by
  rw [resultLine_eq, words_cons _ rfl, words_append_cons _ _ rfl, words_append_cons _ _ rfl, words_cons _ rfl]
  rfl

/-- Expressions have no colon in them, so the line with the results declares nothing. -/
theorem declared?_resultLine {p : Program} (hre : Emitted p.re) : declared? (resultLine p) = none := by
  rw [declared?, words_resultLine, List.head?_cons, Option.filter_eq_none_iff]
  rintro name ⟨⟩ hprefix
  have hline : resultLine p = bytes "\treturn " ++ (p.re.source false false ++ (bytes ", " ++ p.im.source false false)) := by
    simp only [resultLine, List.append_assoc]
  rw [List.isPrefixOf_iff_prefix, hline] at hprefix
  have hreturn : bytes "\treturn " ++ bytes ":= " <+: bytes "\treturn " ++ _ := hprefix
  obtain ⟨rest, hrest⟩ := (List.prefix_append_right_inj (bytes "\treturn ")).1 hreturn
  cases hsource : p.re.source false false with
  | nil =>
    rw [hsource] at hrest
    exact absurd (List.cons.inj hrest).1 (by decide)
  | cons b source =>
    rw [hsource] at hrest
    have hb := isExpressionByte_source hre (c := b) (hsource ▸ List.mem_cons_self)
    rw [← (List.cons.inj hrest).1] at hb
    exact absurd hb (by decide)

theorem usedWords_resultLine {p : Program} (hre : Emitted p.re) :
    usedWords (resultLine p) = bytes "return" :: (words (p.re.source false false) ++ words (p.im.source false false)) := by
  rw [usedWords, declared?_resultLine hre, words_resultLine]
  rfl

/-! ### The lines of a body -/

theorem lines_append_cons {line : Bytes} (hline : Byte.lineFeed ∉ line) (rest : Bytes) :
    lines (line ++ Byte.lineFeed :: rest) = line :: lines rest :=
  List.splitOn_append_cons_self_of_not_mem hline rest

theorem lineFeed_notMem_source (h : Emitted e) : Byte.lineFeed ∉ e.source false false :=
  fun hmem => absurd (isExpressionByte_source h hmem) (by decide)

theorem lineFeed_notMem_temporaryName (n : Nat) : Byte.lineFeed ∉ temporaryName n :=
  fun hmem => absurd (isNameByte_temporaryName n _ hmem) (by decide)

theorem lines_assignSource {n : Nat} (htemp : a.temp = n) (h : Emitted a.expr) (rest : Bytes) :
    lines (Program.assignSource needed a ++ rest) = assignLines needed a ++ lines rest := by
  have hdeclaration : Byte.lineFeed ∉ declarationLine a := by
    rw [declarationLine, htemp, List.mem_append, List.mem_append, List.mem_append]
    have hname := lineFeed_notMem_temporaryName n
    have hsource := lineFeed_notMem_source h
    have hmark : Byte.lineFeed ∉ bytes " := " := by decide
    have htab : Byte.lineFeed ∉ [Byte.tab] := by decide
    tauto
  have hmention : Byte.lineFeed ∉ mentionLine n := by
    rw [mentionLine, List.mem_append, not_or]
    exact ⟨by decide, lineFeed_notMem_temporaryName n⟩
  have hsource : Program.assignSource needed a ++ rest = declarationLine a ++ Byte.lineFeed ::
      ((if needed.contains a.temp.toNat then [] else mentionLine a.temp ++ [Byte.lineFeed]) ++ rest) := by
    simp [Program.assignSource, declarationLine, mentionLine]
  rw [hsource, lines_append_cons hdeclaration, assignLines]
  split
  · rfl
  · rw [htemp, List.append_assoc, List.singleton_append, lines_append_cons hmention]
    rfl

theorem lines_assigns (h : ∀ a ∈ assigns, (∃ n : Nat, a.temp = n) ∧ Emitted a.expr) (rest : Bytes) :
    lines (assigns.flatMap (Program.assignSource needed) ++ rest) = assigns.flatMap (assignLines needed) ++ lines rest := by
  induction assigns with
  | nil => rfl
  | cons a assigns ih =>
    obtain ⟨⟨n, htemp⟩, hexpr⟩ := h a List.mem_cons_self
    rw [List.flatMap_cons, List.append_assoc, lines_assignSource htemp hexpr,
      ih fun b hb => h b (List.mem_cons_of_mem _ hb), List.flatMap_cons, List.append_assoc]

theorem lines_body {p : Program} (hassigns : ∀ a ∈ p.assigns, (∃ n : Nat, a.temp = n) ∧ Emitted a.expr)
    (hre : Emitted p.re) (him : Emitted p.im) : lines (body p needed) = bodyLines p needed := by
  have hresult : Byte.lineFeed ∉ resultLine p := by
    rw [resultLine, List.mem_append, List.mem_append, List.mem_append]
    have hre' := lineFeed_notMem_source hre
    have him' := lineFeed_notMem_source him
    have hreturn : Byte.lineFeed ∉ bytes "\treturn " := by decide
    have hcomma : Byte.lineFeed ∉ bytes ", " := by decide
    tauto
  rw [body, lines_assigns hassigns, show bytes "\n\x7d\n" = Byte.lineFeed :: bytes "\x7d\n" from rfl,
    lines_append_cons hresult]
  rfl

theorem declared_assignLines {n : Nat} (htemp : a.temp = n) :
    (assignLines needed a).filterMap declared? = [temporaryName n] := by
  rw [assignLines, List.filterMap_cons_some (declared?_declarationLine htemp)]
  split
  · rfl
  · rw [htemp, List.filterMap_cons_none (declared?_mentionLine n)]
    rfl

/-- **The temporaries are declared in their order**, each once. -/
theorem declared_assigns (h : InOrder assigns) :
    (assigns.flatMap (assignLines needed)).filterMap declared? = temporaryNames assigns.length := by
  induction assigns using List.reverseRecOn with
  | nil => rfl
  | append_singleton assigns a ih =>
    obtain ⟨htemp, -⟩ := h assigns.length a List.getElem?_concat_length
    rw [List.flatMap_append, List.filterMap_append, ih h.of_append, List.flatMap_singleton, declared_assignLines htemp,
      List.length_append, List.length_singleton, temporaryNames_succ]

theorem declared_bodyLines {p : Program} (h : InOrder p.assigns) (hre : Emitted p.re) :
    (bodyLines p needed).filterMap declared? = temporaryNames p.assigns.length := by
  rw [bodyLines, List.filterMap_append, declared_assigns h, List.filterMap_cons_none (declared?_resultLine hre)]
  exact List.append_nil _

end Lines

/-! ## Every line -/

section Splits

variable {needed : BitSet} {p : Program} {before later : List Bytes} {line : Bytes}

/-- Two lists that are cut before an element are cut in the first or in the second. -/
theorem cut_append {α : Type} {xs ys before later : List α} {y : α} (h : xs ++ ys = before ++ y :: later) :
    (∃ zs, xs = before ++ y :: zs ∧ later = zs ++ ys) ∨ ∃ zs, before = xs ++ zs ∧ ys = zs ++ y :: later := by
  rcases List.append_eq_append_iff.1 h with ⟨zs, hbefore, hys⟩ | ⟨zs, hxs, hlater⟩
  · exact .inr ⟨zs, hbefore, hys⟩
  · cases zs with
    | nil => exact .inr ⟨[], by rw [hxs, List.append_nil, List.append_nil], hlater.symm⟩
    | cons z zs =>
      obtain ⟨rfl, rfl⟩ := List.cons.inj hlater
      exact .inl ⟨zs, hxs, rfl⟩

/-- Lists one after the other that are cut before an element are cut in one of them or behind them. -/
theorem cut_flatMap {α β : Type} {f : α → List β} {xs : List α} {tail before later : List β} {y : β}
    (h : xs.flatMap f ++ tail = before ++ y :: later) :
    (∃ xs₁ x xs₂ ys₁ ys₂, xs = xs₁ ++ x :: xs₂ ∧ f x = ys₁ ++ y :: ys₂ ∧ before = xs₁.flatMap f ++ ys₁ ∧
      later = ys₂ ++ (xs₂.flatMap f ++ tail)) ∨
    ∃ ys, before = xs.flatMap f ++ ys ∧ tail = ys ++ y :: later := by
  induction xs generalizing before with
  | nil => exact .inr ⟨before, rfl, h⟩
  | cons x xs ih =>
    rw [List.flatMap_cons, List.append_assoc] at h
    rcases cut_append h with ⟨ys, hx, rfl⟩ | ⟨ys, rfl, hrest⟩
    · exact .inl ⟨[], x, xs, before, ys, rfl, hx, rfl, rfl⟩
    · rcases ih hrest with ⟨xs₁, z, xs₂, ys₁, ys₂, rfl, hz, rfl, rfl⟩ | ⟨ys', rfl, rfl⟩
      · exact .inl ⟨x :: xs₁, z, xs₂, ys₁, ys₂, rfl, hz, by rw [List.flatMap_cons, List.append_assoc], rfl⟩
      · exact .inr ⟨ys', by rw [List.flatMap_cons, List.append_assoc], rfl⟩

/-- What follows the lines of an assignment is no mention. -/
theorem head?_assignLines_ne {assigns : List Assign} (h : ∀ a ∈ assigns, ∃ n : Nat, a.temp = n) (k : Nat)
    (rest : List Bytes) : (assigns.flatMap (assignLines needed) ++ resultLine p :: rest).head? ≠ some (mentionLine k) := by
  cases assigns with
  | nil =>
    intro hhead
    have hwords := congrArg words (Option.some.inj hhead)
    rw [words_resultLine, words_mentionLine] at hwords
    exact absurd (List.cons.inj hwords).1 (by decide)
  | cons a assigns =>
    obtain ⟨n, htemp⟩ := h a List.mem_cons_self
    intro hhead
    have hdeclared := declared?_declarationLine htemp
    rw [show declarationLine a = mentionLine k from Option.some.inj hhead, declared?_mentionLine] at hdeclared
    cases hdeclared

/-- **The lines of a body**, with what is declared before them. Behind a declaration stands a mention if and only if the
temporary is not needed. -/
theorem bodyLines_cases (horder : InOrder p.assigns) (h : bodyLines p needed = before ++ line :: later) :
    (∃ (k : Nat) (a : Assign), p.assigns[k]? = some a ∧ line = declarationLine a ∧
      before.filterMap declared? = temporaryNames k ∧ (later.head? = some (mentionLine k) ↔ ¬needed.contains k)) ∨
    (∃ k : Nat, line = mentionLine k ∧ before.filterMap declared? = temporaryNames (k + 1)) ∨
    (line = resultLine p ∧ before.filterMap declared? = temporaryNames p.assigns.length) ∨
    line = [closeBrace] ∨ line = [] := by
  rcases cut_flatMap h with ⟨as₁, a, as₂, ys₁, ys₂, hassigns, ha, rfl, rfl⟩ | ⟨ys, rfl, htail⟩
  · have hk : p.assigns[as₁.length]? = some a := by
      rw [hassigns, List.getElem?_append_right (Nat.le_refl _), Nat.sub_self, List.getElem?_cons_zero]
    obtain ⟨htemp, -⟩ := horder _ a hk
    have hearlier : (as₁.flatMap (assignLines needed)).filterMap declared? = temporaryNames as₁.length :=
      declared_assigns (hassigns ▸ horder).of_append
    rw [assignLines, htemp, Int.toNat_natCast] at ha
    cases ys₁ with
    | nil =>
      obtain ⟨hline, rfl⟩ := List.cons.inj ha
      refine .inl ⟨as₁.length, a, hk, hline.symm, by rw [List.append_nil, hearlier], ?_⟩
      split
      · rename_i hneeded
        refine iff_of_false (head?_assignLines_ne (fun b hb => ?_) _ _) (not_not.2 hneeded)
        obtain ⟨n, -, htemp'⟩ := horder.exists_temp
          (hassigns ▸ List.mem_append_right _ (List.mem_cons_of_mem _ hb) : b ∈ p.assigns)
        exact ⟨n, htemp'⟩
      · rename_i hneeded
        exact iff_of_true rfl hneeded
    | cons y ys₁ =>
      obtain ⟨rfl, hmention⟩ := List.cons.inj ha
      split at hmention
      · exact absurd hmention.symm (by simp)
      · cases ys₁ with
        | nil =>
          refine .inr (.inl ⟨as₁.length, (List.cons.inj hmention).1.symm, ?_⟩)
          rw [List.filterMap_append, hearlier, List.filterMap_cons_some (declared?_declarationLine htemp),
            temporaryNames_succ]
          rfl
        | cons z ys₁ => simp at hmention
  · cases ys with
    | nil =>
      obtain ⟨rfl, -⟩ := List.cons.inj htail
      exact .inr (.inr (.inl ⟨rfl, by rw [List.append_nil, declared_assigns horder]⟩))
    | cons y ys =>
      obtain ⟨-, htail⟩ := List.cons.inj htail
      have hmem : line ∈ [[closeBrace], []] := htail ▸ List.mem_append_right _ List.mem_cons_self
      rw [List.mem_cons, List.mem_singleton] at hmem
      exact .inr (.inr (.inr hmem))

end Splits

/-! ## Programs -/

section Programs

variable {needed : BitSet} {p : Program} {before later : List Bytes} {line : Bytes} {k : Nat}

/-- What is known of an emitted program. -/
structure Orderly (p : Program) : Prop where
  inOrder : InOrder p.assigns
  assigns : ∀ a ∈ p.assigns, Emitted a.expr
  re : Emitted p.re
  im : Emitted p.im
  results : ∀ n ∈ p.re.temporaries ++ p.im.temporaries, n < p.assigns.length

theorem temporaryName_ne (k : Nat) {w : Bytes} (hw : w.head? ≠ some Byte.letterT) : temporaryName k ≠ w :=
  fun h => hw (h ▸ rfl)

theorem Orderly.lines_body (h : Orderly p) : lines (body p needed) = bodyLines p needed := by
  refine Source.lines_body (fun a ha => ?_) h.re h.im
  obtain ⟨n, -, htemp⟩ := h.inOrder.exists_temp ha
  exact ⟨⟨n, htemp⟩, h.assigns a ha⟩

/-- The results mention a temporary if and only if their line uses it. -/
theorem Orderly.mem_usedWords_resultLine (h : Orderly p) :
    temporaryName k ∈ usedWords (resultLine p) ↔ (k : Int) ∈ p.re.temporaries ++ p.im.temporaries := by
  rw [usedWords_resultLine h.re, List.mem_cons, or_iff_right (temporaryName_ne k (by decide)), List.mem_append,
    temporaryName_mem_words_source h.re, temporaryName_mem_words_source h.im, List.mem_append]

theorem Orderly.mem_usedWords_declarationLine (h : Orderly p) {a : Assign} (ha : a ∈ p.assigns) :
    temporaryName k ∈ usedWords (declarationLine a) ↔ (k : Int) ∈ a.expr.temporaries := by
  obtain ⟨n, -, htemp⟩ := h.inOrder.exists_temp ha
  rw [usedWords_declarationLine htemp, temporaryName_mem_words_source (h.assigns a ha)]

theorem mem_usedWords_mentionLine {n : Nat} : temporaryName k ∈ usedWords (mentionLine n) ↔ k = n := by
  rw [usedWords_mentionLine, List.mem_cons, or_iff_right (temporaryName_ne k (by decide)), List.mem_singleton]
  exact ⟨temporaryName_injective, fun h => h ▸ rfl⟩

/-- **A temporary is declared before it is used.** -/
theorem Orderly.declared_before (h : Orderly p) (hlines : bodyLines p needed = before ++ line :: later)
    (huses : temporaryName k ∈ usedWords line) : temporaryName k ∈ before.filterMap declared? := by
  rcases bodyLines_cases h.inOrder hlines with
    ⟨n, a, ha, rfl, hbefore, -⟩ | ⟨n, rfl, hbefore⟩ | ⟨rfl, hbefore⟩ | rfl | rfl
  · rw [h.mem_usedWords_declarationLine (List.mem_of_getElem? ha)] at huses
    obtain ⟨-, hlt⟩ := (h.inOrder n a ha).2 _ huses
    rw [hbefore]
    exact mem_temporaryNames (Int.ofNat_lt.1 hlt)
  · rw [mem_usedWords_mentionLine] at huses
    rw [hbefore, huses]
    exact mem_temporaryNames (Nat.lt_succ_self n)
  · rw [h.mem_usedWords_resultLine] at huses
    rw [hbefore]
    exact mem_temporaryNames (Int.ofNat_lt.1 (h.results _ huses))
  · exact absurd huses (by rw [show usedWords [closeBrace] = [] from rfl]; exact List.not_mem_nil)
  · exact absurd huses List.not_mem_nil

/-- **A mention follows a declaration** if and only if no result depends on the temporary. -/
theorem Orderly.mentioned_iff (h : Orderly p) (hneeded : p.needed? = some needed)
    (hlines : bodyLines p needed = before ++ line :: later) (hline : declared? line = some (temporaryName k)) :
    later.head? = some (mentionLine k) ↔ ¬p.Needs k := by
  rcases bodyLines_cases h.inOrder hlines with
    ⟨n, a, ha, rfl, -, hmention⟩ | ⟨n, rfl, -⟩ | ⟨rfl, -⟩ | rfl | rfl
  · rw [declared?_declarationLine (h.inOrder n a ha).1] at hline
    obtain rfl := temporaryName_injective (Option.some.inj hline)
    rw [hmention, ← BitSet.has_natCast, Program.has_needed_iff h.inOrder hneeded]
  · rw [declared?_mentionLine] at hline
    cases hline
  · rw [declared?_resultLine h.re] at hline
    cases hline
  · cases hline
  · cases hline

/-- **Every temporary is used.** -/
theorem Orderly.exists_usedWords (h : Orderly p) (hneeded : p.needed? = some needed) (hk : k < p.assigns.length) :
    ∃ line ∈ bodyLines p needed, temporaryName k ∈ usedWords line := by
  by_cases hneeds : p.Needs k
  · cases hneeds with
    | root hmem =>
      exact ⟨resultLine p, List.mem_append_right _ List.mem_cons_self, h.mem_usedWords_resultLine.2 hmem⟩
    | @operand a _ ha _ hmem =>
      refine ⟨declarationLine a, List.mem_append_left _ ?_, (h.mem_usedWords_declarationLine ha).2 hmem⟩
      exact List.mem_flatMap.2 ⟨a, ha, List.mem_cons_self⟩
  · have ha := List.getElem?_eq_getElem hk
    obtain ⟨htemp, -⟩ := h.inOrder k _ ha
    rw [← Program.has_needed_iff h.inOrder hneeded, BitSet.has_natCast] at hneeds
    refine ⟨mentionLine k, List.mem_append_left _ ?_, mem_usedWords_mentionLine.2 rfl⟩
    refine List.mem_flatMap.2 ⟨_, List.mem_of_getElem? ha, List.mem_cons_of_mem _ ?_⟩
    rw [htemp, Int.toNat_natCast, if_neg hneeds]
    exact List.mem_singleton.2 rfl

/-! ### Calls into package math -/

theorem callsMath_iff : p.callsMath ↔
    (∃ a ∈ p.assigns, a.expr.callsMath false) ∨ p.re.callsMath false ∨ p.im.callsMath false := by
  rw [Program.callsMath, Bool.or_eq_true, Bool.or_eq_true, List.any_eq_true, or_assoc]

theorem letterH_assignSource {a : Assign} {n : Nat} (htemp : a.temp = n) (ha : Emitted a.expr)
    (hmem : letterH ∈ Program.assignSource needed a) : a.expr.callsMath false := by
  have hname : letterH ∉ temporaryName n := by
    rw [temporaryName_natCast, List.mem_cons, not_or]
    exact ⟨by decide, fun h => absurd (digits_decimal n _ h) (by decide)⟩
  have hmarks : letterH ∉ [Byte.tab] ∧ letterH ∉ bytes " := " ∧ letterH ∉ [Byte.lineFeed] ∧ letterH ∉ bytes "\t_ = " := by
    decide
  obtain ⟨htab, hdefine, hlineFeed, hblank⟩ := hmarks
  have hsource : letterH ∈ a.expr.source false false := by
    rw [Program.assignSource, htemp] at hmem
    split at hmem <;> simp only [List.mem_append] at hmem <;> tauto
  exact ha.callsMath_of_letterH hsource

/-- Expressions are printed into the body as they are. -/
theorem source_infix_body (he : (∃ a ∈ p.assigns, e = a.expr) ∨ e = p.re ∨ e = p.im) :
    e.source false false <:+: body p needed := by
  rcases he with ⟨a, ha, rfl⟩ | rfl | rfl
  · have hassign : a.expr.source false false <:+: Program.assignSource needed a :=
      ⟨[Byte.tab] ++ temporaryName a.temp ++ bytes " := ", [Byte.lineFeed] ++ _, by
        rw [Program.assignSource, List.append_assoc _ [Byte.lineFeed]]⟩
    rw [body, List.flatMap_def]
    exact hassign.trans ((List.infix_of_mem_flatten (List.mem_map_of_mem ha)).trans (List.prefix_append _ _).isInfix)
  · exact ⟨p.assigns.flatMap (Program.assignSource needed) ++ bytes "\treturn ",
      bytes ", " ++ (p.im.source false false ++ bytes "\n\x7d\n"), by simp only [body, resultLine, List.append_assoc]⟩
  · exact ⟨p.assigns.flatMap (Program.assignSource needed) ++ bytes "\treturn " ++ p.re.source false false ++ bytes ", ",
      bytes "\n\x7d\n", by simp only [body, resultLine, List.append_assoc]⟩

/-- **A body contains a call into package `math`** if and only if one of its expressions makes one. -/
theorem Orderly.infix_body_iff (h : Orderly p) : bytes "math." <:+: body p needed ↔ p.callsMath := by
  rw [callsMath_iff]
  constructor
  · intro hinfix
    have hmem : letterH ∈ body p needed := hinfix.mem (by decide)
    rw [body, List.mem_append, List.mem_append, List.mem_flatMap] at hmem
    rcases hmem with ⟨a, ha, hmem⟩ | hmem | hmem
    · obtain ⟨n, -, htemp⟩ := h.inOrder.exists_temp ha
      exact .inl ⟨a, ha, letterH_assignSource htemp (h.assigns a ha) hmem⟩
    · have hmarks : letterH ∉ bytes "\treturn " ∧ letterH ∉ bytes ", " := by decide
      rw [resultLine, List.mem_append, List.mem_append, List.mem_append, or_iff_right hmarks.1, or_iff_left hmarks.2] at hmem
      exact .inr (hmem.imp h.re.callsMath_of_letterH h.im.callsMath_of_letterH)
    · exact absurd hmem (by decide)
  · rintro (⟨a, ha, hcalls⟩ | hcalls | hcalls)
    · exact (infix_of_callsMath hcalls).trans (source_infix_body (.inl ⟨a, ha, rfl⟩))
    · exact (infix_of_callsMath hcalls).trans (source_infix_body (.inr (.inl rfl)))
    · exact (infix_of_callsMath hcalls).trans (source_infix_body (.inr (.inr rfl)))

theorem Emitted.isComplete (h : Emitted e) : e.isComplete := by
  induction h with
  | argument | constant | temporary => rfl
  | operation op _ _ ihl ihr => rw [Expr.isComplete, ihl, ihr]; rfl

/-- The function is printed as its head and its body. -/
theorem Orderly.function?_eq (h : Orderly p) (hneeded : p.needed? = some needed) (name : Bytes) :
    p.function? name = some (Listing.header name ++ body p needed) := by
  have hcomplete : p.isComplete := by
    rw [Program.isComplete, h.re.isComplete, h.im.isComplete, Bool.and_true, Bool.and_true, List.all_eq_true]
    exact fun a ha => (h.assigns a ha).isComplete
  simp only [Program.function?, hneeded, hcomplete, if_true, functionSource_eq]

end Programs

end Source

/-! ## Emitted programs -/

section Emission

open Source

namespace ValueTable

variable {t : ValueTable} {named : List Nat} {r re im : Ref} {e : Expr} {p : Program}

theorem RefersTo.emitted (h : t.WellFormed)
    (hargs : ∀ (i : Nat) (v : Value), t.values[i]? = some v → v.kind = .argument → i < 2)
    (hoperators : ∀ v ∈ t.values, v.kind = .binary → ∃ op : Operator, v.symbol = op.symbol)
    (he : t.RefersTo named r e) : Emitted e := by
  induction he with
  | temporary => exact .temporary _
  | @argument i v hv hk => exact .argument (h.parameter hv (hargs i v hv hk))
  | constant => exact .constant _
  | @operation i v _ _ _ hv hk _ _ iha ihb =>
    obtain ⟨op, hop⟩ := hoperators v (Array.mem_of_getElem? hv) hk
    rw [hop]
    exact .operation op iha ihb

theorem orderly_of_toProgram (h : t.WellFormed)
    (hoperators : ∀ v ∈ t.values, v.kind = .binary → ∃ op : Operator, v.symbol = op.symbol)
    (hp : t.toProgram re im = .ok p) : Orderly p := by
  have hargs := strayArgument?_eq_none_iff.1 (toProgram_inv hp).2.2.1
  have hemits := emits_of_toProgram h hp
  refine ⟨hemits.inOrder h (t.pairwise_sharedOperations re im), fun a ha => ?_, hemits.re.emitted h hargs hoperators,
    hemits.im.emitted h hargs hoperators, fun n hn => (hemits.lt_of_mem_results h hn).2⟩
  obtain ⟨v, hv, hk, x, y, hexpr, hx, hy⟩ := hemits.exists_entry ha
  obtain ⟨op, hop⟩ := hoperators v hv hk
  rw [hexpr, hop]
  exact .operation op (hx.emitted h hargs hoperators) (hy.emitted h hargs hoperators)

/-- **Listings obey the rules for variables.** Every temporary is declared once, in its order, before all lines that use
it. Behind its declaration it is mentioned once more if and only if no result depends on it, so there is a line that
uses it. A file imports package `math` if and only if the function makes a call into it. -/
theorem listing_obeys_declaration_rules (ht : t.Reachable)
    (hoperators : ∀ v ∈ t.values, v.kind = .binary → ∃ op : Operator, v.symbol = op.symbol)
    (hp : t.toProgram re im = .ok p) :
    ∃ (count : Nat) (body : Bytes), p.temps = count ∧
      (∀ onto name, p.appendSource? onto name = some (onto ++ (Listing.header name ++ body))) ∧
      (lines body).filterMap declared? = temporaryNames count ∧
      (∀ before line later, lines body = before ++ line :: later →
        (∀ k : Nat, temporaryName k ∈ usedWords line → temporaryName k ∈ before.filterMap declared?) ∧
        ∀ k : Nat, declared? line = some (temporaryName k) →
          (later.head? = some (bytes "\t_ = " ++ temporaryName k) ↔ ¬p.Needs k)) ∧
      (∀ k < count, ∃ line ∈ lines body, temporaryName k ∈ usedWords line) ∧
      ∀ onto package name, p.appendFile? onto package name =
        some (onto ++ bytes "package " ++ package ++ bytes "\n\n" ++
          (if bytes "math." <:+: body then bytes "import \"math\"\n\n" else []) ++ (Listing.header name ++ body)) := by
  have h := ht.wellFormed
  have horderly := orderly_of_toProgram h hoperators hp
  obtain ⟨needed, hneeded⟩ := exists_needed_of_toProgram h hp
  have hlines : lines (body p needed) = bodyLines p needed := horderly.lines_body
  refine ⟨p.assigns.length, body p needed, (emits_of_toProgram h hp).temps, fun onto name => ?_, ?_, ?_, ?_, ?_⟩
  · rw [Program.appendSource?, horderly.function?_eq hneeded, Option.map_some]
  · rw [hlines, declared_bodyLines horderly.inOrder horderly.re]
  · intro before line later hsplit
    rw [hlines] at hsplit
    exact ⟨fun k => horderly.declared_before hsplit, fun k => horderly.mentioned_iff hneeded hsplit⟩
  · intro k hk
    rw [hlines]
    exact horderly.exists_usedWords hneeded hk
  · intro onto package name
    rw [Program.appendFile?, horderly.function?_eq hneeded, Option.map_some]
    simp only [horderly.infix_body_iff]

/-- A product with NaN that is a result, and a chain of operations on it that no result needs. -/
def deadChain : ValueTable :=
  ((((new.after (.constant (bytes "nan"))).after (.operate .mul 0 2)).after (.operate .add 3 3)).after
    (.operate .mul 4 4)).after (.operate .sub 5 5)

theorem values_deadChain : deadChain.values =
    #[.argument (bytes "re"), .argument (bytes "im"), .constant (bytes "nan"), .binary .mul 0 2, .binary .add 3 3,
      .binary .mul 4 4, .binary .sub 5 5] := by cbv

def deadChainProgram : Program where
  assigns := [⟨0, .binary Byte.star (.arg 0 (bytes "re")) (.const (bytes "nan"))⟩,
    ⟨1, .binary Byte.plus (.temp 0) (.temp 0)⟩, ⟨2, .binary Byte.star (.temp 1) (.temp 1)⟩]
  re := .temp 0
  im := .arg 1 (bytes "im")
  temps := 3

theorem toProgram_deadChain : deadChain.toProgram 3 1 = .ok deadChainProgram := by cbv

def deadChainBody : Bytes :=
  bytes "\tt0 := re * math.NaN()\n\tt1 := t0 + t0\n\t_ = t1\n\tt2 := t1 * t1\n\t_ = t2\n\treturn t0, im\n\x7d\n"

theorem appendSource_deadChain : deadChainProgram.appendSource? [] [] = some (Listing.header [] ++ deadChainBody) := by
  decide +kernel

/-- The sum is used by the square only, which nothing uses, so both are mentioned once more. -/
theorem listing_obeys_declaration_rules_deadChain :
    deadChain.toProgram 3 1 = .ok deadChainProgram ∧
    deadChainProgram.appendSource? [] [] = some (Listing.header [] ++ deadChainBody) ∧
    (lines deadChainBody).filterMap declared? = temporaryNames 3 ∧
    (∀ k : Nat, k < 3 → ∃ line ∈ lines deadChainBody, temporaryName k ∈ usedWords line) ∧ ¬deadChainProgram.Needs 1 ∧
    deadChainProgram.appendFile? [] (bytes "p") [] =
      some (bytes "package p\n\nimport \"math\"\n\n" ++ (Listing.header [] ++ deadChainBody)) := by
  have hreachable : deadChain.Reachable := .after (.after (.after (.after (.after .new _) _) _) _) _
  have hoperators : ∀ v ∈ deadChain.values, v.kind = .binary → ∃ op : Operator, v.symbol = op.symbol := by
    rw [values_deadChain]
    simp only [List.mem_toArray, List.mem_cons, List.not_mem_nil, or_false]
    rintro v (rfl | rfl | rfl | rfl | rfl | rfl | rfl)
    · exact nofun
    · exact nofun
    · exact nofun
    · exact fun _ => ⟨.mul, rfl⟩
    · exact fun _ => ⟨.add, rfl⟩
    · exact fun _ => ⟨.mul, rfl⟩
    · exact fun _ => ⟨.sub, rfl⟩
  obtain ⟨count, body, htemps, hsource, hdeclared, hlines, huses, hfile⟩ :=
    listing_obeys_declaration_rules hreachable hoperators toProgram_deadChain
  obtain rfl : 3 = count := Int.ofNat.inj htemps
  have hbody := (hsource [] []).symm.trans appendSource_deadChain
  rw [Option.some.injEq, List.nil_append, List.append_cancel_left_eq] at hbody
  subst hbody
  have hsum : lines deadChainBody = [bytes "\tt0 := re * math.NaN()"] ++ bytes "\tt1 := t0 + t0" :: bytes "\t_ = t1" ::
      [bytes "\tt2 := t1 * t1", bytes "\t_ = t2", bytes "\treturn t0, im", bytes "\x7d", []] := by decide +kernel
  have hmention := (hlines _ _ _ hsum).2 1 (by decide +kernel)
  have hcalls : bytes "math." <:+: deadChainBody := by decide +kernel
  refine ⟨toProgram_deadChain, appendSource_deadChain, hdeclared, huses, hmention.1 (by decide +kernel), ?_⟩
  rw [hfile, if_pos hcalls]
  rfl

end ValueTable

end Emission

end ComplexFormula
