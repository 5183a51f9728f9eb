import ComplexFormula.Proofs.Listing.Reader

/-!
# Phrases that are read

What the reader of listings makes of pieces of text, whatever stands around them. A piece *lexes* to tokens if these come
out in front of the tokens of any text that does not go on with it (`Lexes`). A *factor* takes the machine from expecting
an operand to having one, in any frame (`IsFactor`); an *expression* may use the sum and the product of a frame that has
none (`IsExpression`). Variables, literals and calls are factors, an operation on factors is an expression, and an
expression in parentheses is a factor.
-/

namespace ComplexFormula

namespace Source

open Lexeme

variable {p : Parts} {w w' e rest : Bytes} {b : UInt8} {q : Rat} {t u : Tree} {ts ts' later : List Token}

/-! ## Literals -/

section Literals

theorem fraction_of_head (h : ∀ b ∈ w.head?, b ≠ Byte.point) : fraction w = (none, w) := by
  unfold fraction
  split
  · exact absurd rfl (h Byte.point rfl)
  · rfl

theorem fraction_point (rest : Bytes) : fraction (Byte.point :: rest) =
    (some (rest.takeWhile Byte.isDigit), rest.drop (rest.takeWhile Byte.isDigit).length) := rfl

theorem exponent_append (he : ExponentOf p e) (hrest : Delimited rest) :
    ∃ o, exponent (e ++ rest) = (o, rest) ∧ o.map Prod.snd ≠ some [] ∧ (o.map Prod.fst).getD false = p.negative ∧
      (o.map Prod.snd).getD [] = p.power ∧ o.isNone = e.all Byte.isDigit := by
  cases he with
  | absent hs hp =>
    refine ⟨none, ?_, nofun, hs.symm, hp.symm, rfl⟩
    cases rest with
    | nil => rfl
    | cons b rest =>
      have hmark : ¬(b = Byte.letterE ∨ b = 69) := by
        intro hmark
        have := (hrest b rfl).1
        rw [(letter_of_mark hmark).1] at this
        cases this
      rw [List.nil_append, exponent, if_neg hmark]
  | @present mark sign hmark hsign hp hne =>
    refine ⟨some (p.negative, p.power), ?_, fun h => hne (Option.some.inj h), rfl, rfl, ?_⟩
    · have htake : (p.power ++ rest).takeWhile Byte.isDigit = p.power :=
        takeWhile_append hp fun b hb => (hrest b hb).2.1
      obtain ⟨d, ds, hpower⟩ := List.exists_cons_of_ne_nil hne
      obtain ⟨hplus, hminus⟩ := not_sign (.inl (hp d (by rw [hpower]; exact List.mem_cons_self)))
      rw [List.cons_append, exponent, if_pos hmark, List.append_assoc]
      rcases hsign with rfl | ⟨hs, rfl⟩
      · cases hs : p.negative with
        | true => simp [signOf, htake]
        | false =>
          have hhead : (p.power ++ rest).head? = some d := by rw [hpower]; rfl
          simp [signOf, hhead, hplus, hminus, htake]
      · have hother : Byte.plus ≠ Byte.minus := by decide
        simp [hs, htake, hother]
    · rw [List.all_cons, (letter_of_mark hmark).2.1]
      rfl

theorem fraction_append {m : Bytes} (hm : MantissaOf p m)
    (htail : ∀ b ∈ rest.head?, Byte.isDigit b = false ∧ b ≠ Byte.point) :
    ∃ o, (m ++ rest).takeWhile Byte.isDigit = p.whole ∧ fraction ((m ++ rest).drop p.whole.length) = (o, rest) ∧
      o.getD [] = p.fraction ∧ o.isNone = m.all Byte.isDigit := by
  cases hm with
  | whole hw hne hf =>
    refine ⟨none, takeWhile_append hw fun b hb => (htail b hb).1, ?_, hf.symm, ?_⟩
    · rw [List.drop_left, fraction_of_head fun b hb => (htail b hb).2]
    · rw [List.all_eq_true.2 hw]
      rfl
  | point hw hf hne =>
    have htake : (p.fraction ++ rest).takeWhile Byte.isDigit = p.fraction :=
      takeWhile_append hf fun b hb => (htail b hb).1
    rw [List.append_assoc, List.cons_append]
    refine ⟨some p.fraction, takeWhile_append hw ?_, ?_, rfl, ?_⟩
    · rintro b ⟨⟩
      decide
    · rw [List.drop_left, fraction_point, htake, List.drop_left]
    · have hpoint : Byte.isDigit Byte.point = false := by decide
      rw [List.all_append, List.all_cons, hpoint, Bool.false_and, Bool.and_false]
      rfl

/-- **A number is scanned as a whole** and taken apart. -/
theorem literal?_append (h : Spelled p w) (hrest : Delimited rest) :
    literal? (w ++ rest) = some (⟨p, w.all Byte.isDigit⟩, rest) := by
  obtain ⟨-, -, -, hsome⟩ := h.digits
  obtain @⟨m, e, hm, he⟩ := h
  have htail : ∀ b ∈ (e ++ rest).head?, Byte.isDigit b = false ∧ b ≠ Byte.point := by
    intro b hb
    rw [List.head?_append] at hb
    cases hhead : e.head? with
    | some c =>
      rw [hhead] at hb
      cases hb
      exact ⟨(he.head b hhead).1, (he.head b hhead).2.1⟩
    | none =>
      rw [hhead, Option.none_or] at hb
      exact ⟨(hrest b hb).2.1, (hrest b hb).2.2.1⟩
  obtain ⟨o, htake, hfraction, hdigits, hpoint⟩ := fraction_append hm htail
  obtain ⟨o', hexponent, hne, hnegative, hpower, hmark⟩ := exponent_append he hrest
  have hcond : ¬((p.whole = [] ∧ o.getD [] = []) ∨ o'.map Prod.snd = some []) := by
    rw [hdigits]
    exact fun h => h.elim (fun h => hsome.elim (absurd h.1) (absurd h.2)) hne
  rw [List.append_assoc, literal?]
  simp only [htake, hfraction, hexponent, if_neg hcond]
  rw [hdigits, hnegative, hpower, hpoint, hmark, List.all_append]

end Literals

/-! ## Tokens -/

section Tokens

theorem tokens_blank (hb : b = Byte.space ∨ b = Byte.tab) (rest : Bytes) : tokens (b :: rest) = tokens rest := by
  rw [tokens, if_pos hb]

theorem tokens_mark (hb : b ∈ marks) (h : tokens rest = some later) :
    tokens (b :: rest) = some (.mark b :: later) := by
  have hother : ∀ b ∈ marks, ¬(b = Byte.space ∨ b = Byte.tab) ∧ ¬Byte.isLetter b ∧
      ¬(Byte.isDigit b ∨ b = Byte.point) ∧ b ≠ colon := by decide +kernel
  obtain ⟨hblank, hletter, hdigit, hcolon⟩ := hother b hb
  rw [tokens, if_neg hblank, if_neg hletter, if_neg hdigit, if_neg fun h => hcolon h.1, if_pos hb, h]
  rfl

theorem tokens_define (h : tokens rest = some later) :
    tokens (colon :: Byte.equals :: rest) = some (.define :: later) := by
  rw [tokens, if_neg (by decide), if_neg (by decide), if_neg (by decide), if_pos ⟨rfl, rfl⟩, List.tail_cons, h]
  rfl

/-- The tokens come out whatever follows, unless it goes on with the text. -/
def Lexes (w : Bytes) (ts : List Token) : Prop :=
  ∀ rest later, Delimited rest → tokens rest = some later → tokens (w ++ rest) = some (ts ++ later)

theorem Lexes.word (hb : Byte.isLetter b) (hw : ∀ c ∈ w, isWordByte c = true) : Lexes (b :: w) [.word (b :: w)] := by
  intro rest later hrest hlater
  have hblank : ¬(b = Byte.space ∨ b = Byte.tab) := by
    rintro (rfl | rfl)
    · exact absurd hb (by decide)
    · exact absurd hb (by decide)
  have htake : (w ++ rest).takeWhile isWordByte = w := by
    apply takeWhile_append hw
    intro c hc
    obtain ⟨hletter, hdigit, hpoint, -⟩ := hrest c hc
    simp [isWordByte, hletter, hdigit, hpoint]
  rw [List.cons_append, tokens, if_neg hblank, if_pos hb]
  simp only [htake, List.drop_left, hlater]
  rfl

theorem Lexes.literal (h : Spelled p w) (hq : Literal.value? ⟨p, w.all Byte.isDigit⟩ = some q) :
    Lexes w [.literal q] := by
  intro rest later hrest hlater
  have hscan := literal?_append h hrest
  obtain ⟨b, tail, rfl, hb⟩ := head_of_number h.number
  have hother : ¬(b = Byte.space ∨ b = Byte.tab) ∧ ¬Byte.isLetter b := by
    simp only [Byte.isDigit, Byte.isLetter] at hb ⊢
    grind
  have hle : rest.length ≤ (tail ++ rest).length := by
    rw [List.length_append]
    omega
  rw [List.cons_append, tokens, if_neg hother.1, if_neg hother.2, if_pos hb, ← List.cons_append, hscan]
  simp only [Option.bind_eq_bind, Option.bind_some, dif_pos hle, hq, hlater, Option.map_some]
  rfl

theorem delimited_nil : Delimited [] := by
  intro b hb
  cases hb

theorem delimited_cons (hb : Byte.isLetter b = false ∧ Byte.isDigit b = false ∧ b ≠ Byte.point ∧ b < 128) (rest : Bytes) :
    Delimited (b :: rest) := by
  rintro c ⟨⟩
  exact hb

theorem Lexes.nil : Lexes [] [] := fun _ _ _ hlater => hlater

theorem Lexes.cons_blank (hb : b = Byte.space ∨ b = Byte.tab) (h : Lexes w ts) : Lexes (b :: w) ts := by
  intro rest later hrest hlater
  rw [List.cons_append, tokens_blank hb]
  exact h rest later hrest hlater

theorem Lexes.cons_mark (hb : b ∈ marks) (h : Lexes w ts) : Lexes (b :: w) (.mark b :: ts) :=
  fun rest later hrest hlater => tokens_mark hb (h rest later hrest hlater)

/-- Marks and blanks end whatever is in front of them. -/
theorem Lexes.append (h : Lexes w ts) (hend : Delimited w') (hne : w' ≠ []) (h' : Lexes w' ts') :
    Lexes (w ++ w') (ts ++ ts') := by
  intro rest later hrest hlater
  obtain ⟨b, tail, rfl⟩ := List.exists_cons_of_ne_nil hne
  rw [List.append_assoc, List.append_assoc]
  exact h _ _ (delimited_cons (hend b rfl) _) (h' rest later hrest hlater)

theorem delimited_mark (hb : b ∈ marks) (rest : Bytes) : Delimited (b :: rest) := by
  have hend : ∀ b ∈ marks, Byte.isLetter b = false ∧ Byte.isDigit b = false ∧ b ≠ Byte.point ∧ b < 128 := by
    decide +kernel
  exact delimited_cons (hend b hb) rest

theorem Lexes.append_mark (h : Lexes w ts) (hb : b ∈ marks) (h' : Lexes w' ts') :
    Lexes (w ++ b :: w') (ts ++ .mark b :: ts') :=
  h.append (delimited_mark hb w') (List.cons_ne_nil _ _) (h'.cons_mark hb)

theorem Lexes.append_blank (h : Lexes w ts) (h' : Lexes w' ts') : Lexes (w ++ Byte.space :: w') (ts ++ ts') :=
  h.append (delimited_cons (by decide) w') (List.cons_ne_nil _ _) (h'.cons_blank (.inl rfl))

end Tokens

/-! ## Expressions -/

section Expressions

theorem State.after_closeParen (s : State) (t : Tree) :
    s.after t Byte.closeParen = s.leave (s.frame.args ++ [s.frame.plus t]) := rfl

/-- The text is read as one factor in any frame. -/
def IsFactor (w : Bytes) (t : Tree) : Prop :=
  ∃ ts, Lexes w ts ∧ ∀ outer frame, ts.foldlM State.step ⟨outer, frame, .operand⟩ = some ⟨outer, frame, .value t⟩

/-- The text is read as an expression in any frame that has no sum and no product. -/
def IsExpression (w : Bytes) (t : Tree) : Prop :=
  ∃ ts, Lexes w ts ∧ ∀ outer callee args, ∃ frame t',
    ts.foldlM State.step ⟨outer, ⟨callee, args, none, none⟩, .operand⟩ = some ⟨outer, frame, .value t'⟩ ∧
      frame.callee = callee ∧ frame.args = args ∧ frame.plus t' = t

theorem IsFactor.isExpression (h : IsFactor w t) : IsExpression w t := by
  obtain ⟨ts, hts, hrun⟩ := h
  exact ⟨ts, hts, fun outer callee args => ⟨_, t, hrun outer _, rfl, rfl, rfl⟩⟩

theorem isFactor_name (hb : Byte.isLetter b) (hw : ∀ c ∈ w, isWordByte c = true) (ht : named? (b :: w) = some t) :
    IsFactor (b :: w) t := by
  refine ⟨_, Lexes.word hb hw, fun outer frame => ?_⟩
  simp [State.step, ht]

theorem isFactor_literal (h : Spelled p w) (hq : Literal.value? ⟨p, w.all Byte.isDigit⟩ = some q) (negative : Bool) :
    IsFactor (signOf negative ++ w) (.constant (.literal (if negative then -q else q))) := by
  have hlexes := Lexes.literal h hq
  cases negative with
  | false => exact ⟨_, hlexes, fun outer frame => rfl⟩
  | true => exact ⟨_, hlexes.cons_mark (by decide), fun outer frame => rfl⟩

/-- An operation on two factors. -/
theorem IsFactor.operation (h : IsFactor w t) (h' : IsFactor w' u) (op : Operator) :
    IsExpression (w ++ [Byte.space, op.symbol, Byte.space] ++ w') (.operation op.symbol t u) := by
  obtain ⟨ts, hts, hrun⟩ := h
  obtain ⟨ts', hts', hrun'⟩ := h'
  have hmark : op.symbol ∈ marks := by cases op <;> decide
  refine ⟨ts ++ (.mark op.symbol :: ts'), ?_, fun outer callee args => ?_⟩
  · have hlexes := hts.append_blank ((hts'.cons_blank (.inl rfl)).cons_mark hmark)
    simpa using hlexes
  · cases op with
    | add | sub =>
      refine ⟨⟨callee, args, some (t, _), none⟩, u, ?_, rfl, rfl, rfl⟩
      rw [List.foldlM_append, hrun]
      exact hrun' _ _
    | mul | div =>
      refine ⟨⟨callee, args, none, some (t, _)⟩, u, ?_, rfl, rfl, rfl⟩
      rw [List.foldlM_append, hrun]
      exact hrun' _ _

end Expressions

/-! ## Lists of expressions -/

section Lists

variable {us : List Tree}

/-- The text is read as expressions with commas between them, after an opening parenthesis or on its own. -/
def IsList (w : Bytes) (us : List Tree) : Prop :=
  ∃ ts, Lexes w ts ∧ ∀ outer callee, ∃ frame t,
    ts.foldlM State.step ⟨outer, .opened callee, .operand⟩ = some ⟨outer, frame, .value t⟩ ∧
      frame.callee = callee ∧ frame.args ++ [frame.plus t] = us

theorem IsExpression.isList (h : IsExpression w t) : IsList w [t] := by
  obtain ⟨ts, hts, hrun⟩ := h
  refine ⟨ts, hts, fun outer callee => ?_⟩
  obtain ⟨frame, t', hrun', hcallee, hargs, hplus⟩ := hrun outer callee []
  exact ⟨frame, t', hrun', hcallee, by rw [hargs, hplus]; rfl⟩

theorem IsList.append (h : IsList w us) (h' : IsExpression w' t) :
    IsList (w ++ Byte.comma :: Byte.space :: w') (us ++ [t]) := by
  obtain ⟨ts, hts, hrun⟩ := h
  obtain ⟨ts', hts', hrun'⟩ := h'
  refine ⟨_, hts.append_mark (by decide) (hts'.cons_blank (.inl rfl)), fun outer callee => ?_⟩
  obtain ⟨frame, u, hfirst, rfl, rfl⟩ := hrun outer callee
  obtain ⟨frame', u', hlast, hcallee, hargs, hplus⟩ := hrun' outer frame.callee (frame.args ++ [frame.plus u])
  refine ⟨frame', u', ?_, hcallee, by rw [hargs, hplus]⟩
  rw [List.foldlM_append, hfirst]
  exact hlast

/-- What stands in parentheses, up to the closing one. -/
theorem IsList.enclosed (h : IsList w us) (callee : Option Bytes) (ht : Frame.close? (.opened callee) us = some t) :
    ∃ ts, Lexes (w ++ [Byte.closeParen]) ts ∧ ∀ outer frame,
      ts.foldlM State.step ⟨frame :: outer, .opened callee, .operand⟩ = some ⟨outer, frame, .value t⟩ := by
  obtain ⟨ts, hts, hrun⟩ := h
  refine ⟨_, hts.append_mark (by decide) .nil, fun outer frame => ?_⟩
  obtain ⟨frame', u, hrun', hcallee, hargs⟩ := hrun (frame :: outer) callee
  have hclose : State.step ⟨frame :: outer, frame', .value u⟩ (.mark Byte.closeParen) =
      some ⟨outer, frame, .value t⟩ := by
    have hresult : frame'.close? us = some t := by
      rw [← ht]
      unfold Frame.close?
      rw [hcallee]
      rfl
    simp only [State.step, State.after_closeParen, State.leave, hargs, hresult, Option.map_some]
  rw [List.foldlM_append, hrun', Option.bind_eq_bind, Option.bind_some, List.foldlM_cons, hclose]
  rfl

/-- **An expression in parentheses** is a factor. -/
theorem IsExpression.parenthesize (h : IsExpression w t) : IsFactor ([Byte.openParen] ++ w ++ [Byte.closeParen]) t := by
  obtain ⟨ts, hts, hrun⟩ := h.isList.enclosed (t := t) none rfl
  refine ⟨.mark Byte.openParen :: ts, hts.cons_mark (by decide), fun outer frame => ?_⟩
  exact hrun outer frame

/-- A call is a factor. -/
theorem IsList.call (h : IsList w us) (b : UInt8) (name : Bytes) (hb : Byte.isLetter b)
    (hw : ∀ c ∈ name, isWordByte c = true) (hname : named? (b :: name) = none) (ht : call? (b :: name) us = some t) :
    IsFactor ((b :: name) ++ ([Byte.openParen] ++ w ++ [Byte.closeParen])) t := by
  obtain ⟨ts, hts, hrun⟩ := h.enclosed (some (b :: name)) ht
  refine ⟨_, (Lexes.word hb hw).append_mark (by decide) hts, fun outer frame => ?_⟩
  rw [List.singleton_append, List.foldlM_cons]
  simp only [State.step, hname]
  exact hrun outer frame

/-- A call without arguments. -/
theorem isFactor_call_nil (hb : Byte.isLetter b) (hw : ∀ c ∈ w, isWordByte c = true) (hname : named? (b :: w) = none)
    (ht : call? (b :: w) [] = some t) : IsFactor ((b :: w) ++ [Byte.openParen, Byte.closeParen]) t := by
  refine ⟨_, (Lexes.word hb hw).append_mark (by decide) (Lexes.nil.cons_mark (by decide)), fun outer frame => ?_⟩
  have hleave : State.leave ⟨frame :: outer, .opened (some (b :: w)), .operand⟩ [] = some ⟨outer, frame, .value t⟩ := by
    simp [State.leave, Frame.opened, Frame.close?, ht]
  rw [List.singleton_append, List.foldlM_cons]
  simp only [State.step, hname]
  show State.leave ⟨frame :: outer, .opened (some (b :: w)), .operand⟩ [] >>= pure = _
  rw [hleave]
  rfl

end Lists

/-! ## Lines -/

section Lines

variable {us : List Tree} {l : Line} {ls ls' : List Line}

theorem State.step_lineFeed (s : State) : s.step (.mark Byte.lineFeed) = none := by
  obtain ⟨outer, frame, _ | _ | w | t⟩ := s <;> rfl

/-- No line ends inside an expression. -/
theorem lineFeed_notMem {s s' : State} (h : ts.foldlM State.step s = some s') : .mark Byte.lineFeed ∉ ts := by
  induction ts generalizing s with
  | nil => exact List.not_mem_nil
  | cons token ts ih =>
    rw [List.foldlM_cons] at h
    cases hstep : s.step token with
    | none =>
      rw [hstep] at h
      cases h
    | some s₁ =>
      rw [hstep] at h
      rw [List.mem_cons, not_or]
      refine ⟨?_, ih h⟩
      rintro rfl
      rw [State.step_lineFeed] at hstep
      cases hstep

theorem IsList.expressions? (h : IsList w us) :
    ∃ ts, Lexes w ts ∧ expressions? ts = some us ∧ .mark Byte.lineFeed ∉ ts := by
  obtain ⟨ts, hts, hrun⟩ := h
  obtain ⟨frame, t, hrun', -, rfl⟩ := hrun [] none
  refine ⟨ts, hts, ?_, lineFeed_notMem hrun'⟩
  rw [Source.expressions?, State.start, hrun']

theorem lines?_append {line : List Token} (hts : .mark Byte.lineFeed ∉ ts) (rest : List Token) :
    lines? line (ts ++ rest) = lines? (line ++ ts) rest := by
  induction ts generalizing line with
  | nil => rw [List.nil_append, List.append_nil]
  | cons token ts ih =>
    rw [List.mem_cons, not_or] at hts
    rw [List.cons_append, lines?, if_neg (Ne.symm hts.1), ih hts.2, List.append_assoc]
    rfl

/-- The text consists of the given lines. -/
def IsLines (w : Bytes) (ls : List Line) : Prop :=
  ∃ ts, (∀ rest later, tokens rest = some later → tokens (w ++ rest) = some (ts ++ later)) ∧
    ∀ more ls', lines? [] more = some ls' → lines? [] (ts ++ more) = some (ls ++ ls')

theorem IsLines.nil : IsLines [] [] := ⟨[], fun _ _ h => h, fun _ _ h => h⟩

theorem IsLines.append (h : IsLines w ls) (h' : IsLines w' ls') : IsLines (w ++ w') (ls ++ ls') := by
  obtain ⟨ts, htokens, hlines⟩ := h
  obtain ⟨ts', htokens', hlines'⟩ := h'
  refine ⟨ts ++ ts', fun rest later hrest => ?_, fun more ls'' hmore => ?_⟩
  · rw [List.append_assoc, List.append_assoc]
    exact htokens _ _ (htokens' rest later hrest)
  · rw [List.append_assoc, List.append_assoc]
    exact hlines _ _ (hlines' more ls'' hmore)

theorem isLines_line (hts : Lexes w ts) (hl : line? ts = some l) (hline : .mark Byte.lineFeed ∉ ts) :
    IsLines (w ++ [Byte.lineFeed]) [l] := by
  refine ⟨ts ++ [.mark Byte.lineFeed], fun rest later hrest => ?_, fun more ls hmore => ?_⟩
  · have hmark : Byte.lineFeed ∈ marks := by decide
    rw [List.append_assoc, List.append_assoc]
    exact hts _ _ (delimited_mark hmark rest) (tokens_mark hmark hrest)
  · rw [List.append_assoc, lines?_append hline, List.nil_append, List.singleton_append, lines?, if_pos rfl, hl, hmore]
    rfl

theorem IsLines.ofSource? (h : IsLines w ls) (name : Bytes) :
    Listing.ofSource? name (Listing.header name ++ w) = Listing.ofLines? ls := by
  obtain ⟨ts, htokens, hlines⟩ := h
  have ht : tokens w = some ts := by simpa using htokens [] [] (by rw [tokens])
  have hl : lines? [] ts = some ls := by simpa using hlines [] [] rfl
  rw [Listing.ofSource?, if_pos (List.isPrefixOf_iff_prefix.2 (List.prefix_append _ _)), List.drop_left, ht,
    Option.bind_eq_bind, Option.bind_some, hl]
  rfl

end Lines

end Source

end ComplexFormula
