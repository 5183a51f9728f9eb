import ComplexFormula.Formula.Basic
import ComplexFormula.Proofs.Grammar.Cursor

/-!
# Parsing ends inside the text

A walk over a text by any grammar ends, and it ends with what the parser of the grammar answers (`follows_run`). Combinators
carry this over from their parts (`follows_chain`, `follows_choice`, `follows_enclosed`, `follows_afterBlanks`).

Two things could go on for ever. A chain takes turns, but only as long as its operators move the cursor, so there are no
more turns than bytes (`turns_ends`). And expressions hold factors which hold expressions, but behind a parenthesis, so
what holds of expressions from a position on rests on expressions from the next position on (`follows_nested`).
-/

namespace ComplexFormula

variable {σ ε α : Type}

namespace Cursor

variable {builder : Builder σ ε α} {g : Grammar} {parser : Parser σ ε α} {text : Bytes} {low start : Nat}

/-! ## Combinators -/

section Combinators

/-- The three ways in which a walk ends, and the parser with it. -/
theorem Follows.cases (h : Follows builder g parser text low) (hlow : low ≤ start) (hstart : start ≤ text.length)
    (s : Session σ ε) :
    (∃ item used s', parser (text.drop start) s = (.done item used, s') ∧
      Settles (fun fuel => run builder text fuel g start) s (.ok ⟨start + used, .ok item⟩, s') ∧
      start + used ≤ text.length) ∨
    (∃ why used s', parser (text.drop start) s = (.failed why used, s') ∧
      Settles (fun fuel => run builder text fuel g start) s (.ok ⟨start + used, .error why⟩, s') ∧
      start + used ≤ text.length) ∨
    ∃ f s', parser (text.drop start) s = (.fault f, s') ∧
      Settles (fun fuel => run builder text fuel g start) s (.error f, s') ∧ OfOperator f := by
  obtain ⟨hrun, hproper⟩ := h start hlow hstart s
  rcases hparser : parser (text.drop start) s with ⟨outcome, s'⟩
  rw [hparser] at hrun hproper
  cases outcome with
  | done item used =>
    have hused : used ≤ text.length - start := hproper
    exact .inl ⟨item, used, s', rfl, hrun, by omega⟩
  | failed why used =>
    have hused : used ≤ text.length - start := hproper
    exact .inr (.inl ⟨why, used, s', rfl, hrun, by omega⟩)
  | fault f => exact .inr (.inr ⟨f, s', rfl, hrun, hproper⟩)

theorem count_le (blanks : Blanks) (text : Bytes) : blanks.count text ≤ text.length :=
  (List.takeWhile_prefix _).length_le

theorem follows_afterBlanks (blanks : Blanks) (h : Follows builder g parser text low) :
    Follows builder (.afterBlanks blanks g) (Parser.afterBlanks blanks g.description parser) text low := by
  intro start hlow hstart s
  have hskip : Settles (fun fuel => skipWhile blanks.contains text fuel start) s
      (.ok (start + blanks.count (text.drop start)), s) := settles_skipWhile blanks.contains text start s
  have hle := add_le_length hstart (count_le blanks (text.drop start))
  refine ends_succ ?_
  simp only [run]
  rw [ends_bind hskip]
  rcases h.cases (Nat.le_trans hlow (Nat.le_add_right _ _)) hle s with
    ⟨item, used, s', hparser, hrun, hused⟩ | ⟨why, used, s', hparser, hrun, hused⟩ | ⟨f, s', hparser, hrun, hf⟩
  · simp only [Parser.afterBlanks, List.drop_drop, hparser]
    rw [ends_bind hrun]
    exact ends_done (Nat.add_assoc _ _ _) hused
  · simp only [Parser.afterBlanks, List.drop_drop, hparser]
    rw [ends_bind hrun]
    exact ends_failed_back hused
  · simp only [Parser.afterBlanks, List.drop_drop, hparser]
    exact ends_fault hrun hf _

/-- Alternatives in turn, by induction on those that are left. A failure that is kept is one inside the text. -/
theorem alternatives_ends {gs : List Grammar} {qs : List (Bytes × Parser σ ε α)} (names : List Bytes)
    (h : List.Forall₂ (fun g q => q.1 = g.description ∧ Follows builder g q.2 text low) gs qs) (hlow : low ≤ start)
    (hstart : start ≤ text.length) (kept : Option (Failure ε × Nat)) (hkept : ∀ q ∈ kept, start + q.2 ≤ text.length)
    (s : Session σ ε) :
    Ends text start (fun fuel => alternatives builder text fuel names gs start (kept.map fun q => (q.1, start + q.2))) s
      (Parser.choiceGo names (text.drop start) qs kept s) := by
  induction h generalizing kept s with
  | nil =>
    refine ends_succ ?_
    cases kept with
    | none =>
      simp only [Option.map_none, alternatives]
      exact ends_failed_here
    | some q =>
      simp only [Option.map_some, alternatives]
      exact ends_failed rfl (hkept q rfl)
  | @cons g q gs qs hq hrest ih =>
    obtain ⟨d, parser⟩ := q
    obtain ⟨rfl, hfollows⟩ : d = g.description ∧ Follows builder g parser text low := hq
    refine ends_succ ?_
    simp only [alternatives]
    rcases hfollows.cases hlow hstart s with
      ⟨item, used, s', hparser, hrun, hused⟩ | ⟨why, used, s', hparser, hrun, hused⟩ | ⟨f, s', hparser, hrun, hf⟩
    · simp only [Parser.choiceGo, hparser]
      rw [ends_bind hrun]
      exact ends_done rfl hused
    · simp only [Parser.choiceGo, hparser]
      rw [ends_bind hrun]
      by_cases hzero : used = 0
      · rw [if_pos hzero]
        simp only [hzero, Nat.add_zero, if_true]
        exact ih kept hkept s'
      · rw [if_neg hzero]
        simp only [Nat.add_eq_left, if_neg hzero]
        cases kept with
        | none => exact ih (some (why.under g.description, used)) (fun q hq => Option.mem_some.1 hq ▸ hused) s'
        | some q => exact ih (some q) hkept s'
    · simp only [Parser.choiceGo, hparser]
      exact ends_fault hrun hf _

theorem follows_choice {gs : List Grammar} {qs : List (Bytes × Parser σ ε α)}
    (h : List.Forall₂ (fun g q => q.1 = g.description ∧ Follows builder g q.2 text low) gs qs) :
    Follows builder (.choice gs) (Parser.choice qs) text low := by
  intro start hlow hstart s
  have hnames : gs.map Grammar.description = qs.map (·.1) := by
    induction h with
    | nil => rfl
    | cons hq _ ih => rw [List.map_cons, List.map_cons, ih, hq.1]
  have hnone : ∀ q ∈ (none : Option (Failure ε × Nat)), start + q.2 ≤ text.length := by
    intro q hq
    cases hq
  refine ends_succ ?_
  simp only [run, hnames]
  exact alternatives_ends _ h hlow hstart none hnone s

/-- A part that is asked for. -/
theorem Follows.optional_cases (h : Follows builder g parser text low) (hlow : low ≤ start) (hstart : start ≤ text.length)
    (s : Session σ ε) :
    (∃ item used s', parser (text.drop start) s = (.done item used, s') ∧
      Settles (fun fuel => optional builder text fuel (some g) start) s (.ok (start + used, none), s') ∧
      start + used ≤ text.length) ∨
    (∃ why used s', parser (text.drop start) s = (.failed why used, s') ∧
      Settles (fun fuel => optional builder text fuel (some g) start) s (.ok (start + used, some why), s') ∧
      start + used ≤ text.length) ∨
    ∃ f s', parser (text.drop start) s = (.fault f, s') ∧
      Settles (fun fuel => optional builder text fuel (some g) start) s (.error f, s') ∧ OfOperator f := by
  rcases h.cases hlow hstart s with
    ⟨item, used, s', hparser, hrun, hused⟩ | ⟨why, used, s', hparser, hrun, hused⟩ | ⟨f, s', hparser, hrun, hf⟩
  · refine .inl ⟨item, used, s', hparser, settles_succ ?_, hused⟩
    simp only [optional]
    rw [settles_bind hrun]
    exact settles_pure _ s'
  · refine .inr (.inl ⟨why, used, s', hparser, settles_succ ?_, hused⟩)
    simp only [optional]
    rw [settles_bind hrun]
    exact settles_pure _ s'
  · refine .inr (.inr ⟨f, s', hparser, settles_succ ?_, hf⟩)
    simp only [optional]
    exact settles_fault hrun _

theorem settles_optional_none (start : Nat) (s : Session σ ε) :
    Settles (fun fuel => optional builder text fuel none start) s (.ok (start, none), s) := by
  refine settles_succ ?_
  simp only [optional]
  exact settles_pure _ s

/-- The part at the front, if one is asked for. -/
theorem opening_cases {pre : Option Grammar} {pre' : Option (Parser σ ε α)}
    (h : Option.Rel (fun g parser => Follows builder g parser text low) pre pre') (hlow : low ≤ start)
    (hstart : start ≤ text.length) (s : Session σ ε) :
    (∃ used s', Parser.opening pre' (text.drop start) s = (.ok used, s') ∧
      Settles (fun fuel => optional builder text fuel pre start) s (.ok (start + used, none), s') ∧
      start + used ≤ text.length) ∨
    (∃ why used s', Parser.opening pre' (text.drop start) s = (.error (.failed (why.under (bytes "pre")) used), s') ∧
      Settles (fun fuel => optional builder text fuel pre start) s (.ok (start + used, some why), s') ∧
      start + used ≤ text.length) ∨
    ∃ f s', Parser.opening pre' (text.drop start) s = (.error (.fault f), s') ∧
      Settles (fun fuel => optional builder text fuel pre start) s (.error f, s') ∧ OfOperator f := by
  cases h with
  | none => exact .inl ⟨0, s, rfl, settles_optional_none start s, hstart⟩
  | some h =>
    rcases h.optional_cases hlow hstart s with
      ⟨_, used, s', hparser, hrun, hused⟩ | ⟨why, used, s', hparser, hrun, hused⟩ | ⟨f, s', hparser, hrun, hf⟩
    · exact .inl ⟨used, s', by simp only [Parser.opening, hparser], hrun, hused⟩
    · exact .inr (.inl ⟨why, used, s', by simp only [Parser.opening, hparser], hrun, hused⟩)
    · exact .inr (.inr ⟨f, s', by simp only [Parser.opening, hparser], hrun, hf⟩)

/-- What is enclosed need only be known to follow from where the opening part ends. -/
theorem follows_enclosed {pre post : Option Grammar} {pre' post' : Option (Parser σ ε α)}
    (hpre : Option.Rel (fun g parser => Follows builder g parser text low) pre pre')
    (hinner : ∀ start, low ≤ start → start ≤ text.length → ∀ s used s',
      Parser.opening pre' (text.drop start) s = (.ok used, s') → Follows builder g parser text (start + used))
    (hpost : Option.Rel (fun g parser => Follows builder g parser text low) post post') :
    Follows builder (.enclosed pre g post) (Parser.enclosed pre' parser post') text low := by
  intro start hlow hstart s
  refine ends_succ ?_
  simp only [run]
  rcases opening_cases hpre hlow hstart s with
    ⟨opened, s₁, hopening, hrun, hopened⟩ | ⟨why, used, s₁, hopening, hrun, hused⟩ | ⟨f, s₁, hopening, hrun, hf⟩
  · simp only [Parser.enclosed, hopening]
    rw [ends_bind hrun]
    rcases (hinner start hlow hstart s opened s₁ hopening).cases (Nat.le_refl _) hopened s₁ with
      ⟨item, used, s₂, hparser, hrun, hused⟩ | ⟨why, used, s₂, hparser, hrun, hused⟩ | ⟨f, s₂, hparser, hrun, hf⟩
    · simp only [List.drop_drop, hparser]
      rw [ends_bind hrun]
      cases hpost with
      | none =>
        rw [ends_bind (settles_optional_none _ s₂)]
        exact ends_done (Nat.add_assoc _ _ _) hused
      | some hclosing =>
        rcases hclosing.optional_cases (by omega) hused s₂ with
          ⟨_, last, s₃, hparser, hrun, hlast⟩ | ⟨why, last, s₃, hparser, hrun, hlast⟩ | ⟨f, s₃, hparser, hrun, hf⟩
        · rw [Nat.add_assoc start] at hparser
          simp only [hparser]
          rw [ends_bind hrun]
          exact ends_done (by omega) hlast
        · rw [Nat.add_assoc start] at hparser
          simp only [hparser]
          rw [ends_bind hrun]
          exact ends_failed (by omega) hlast
        · rw [Nat.add_assoc start] at hparser
          simp only [hparser]
          exact ends_fault hrun hf _
    · simp only [List.drop_drop, hparser]
      rw [ends_bind hrun]
      exact ends_failed_back hused
    · simp only [List.drop_drop, hparser]
      exact ends_fault hrun hf _
  · simp only [Parser.enclosed, hopening]
    rw [ends_bind hrun]
    exact ends_failed rfl hused
  · simp only [Parser.enclosed, hopening]
    exact ends_fault hrun hf _

/-- Two operands are joined, or refused by the builder, or there is a fault of the operator. -/
theorem join_cases (builder : Builder σ ε α) (b : UInt8) (left right : Item α) (used : Nat) (s : Session σ ε) :
    (∃ item s', join builder b left right s = some (.ok (.ok item), s') ∧
      Parser.join builder b left right used s = (.done item used, s')) ∨
    (∃ why s', join builder b left right s = some (.ok (.error why), s') ∧
      Parser.join builder b left right used s = (.failed why used, s')) ∨
    ∃ f, join builder b left right s = some (.error f, s) ∧ Parser.join builder b left right used s = (.fault f, s) ∧
      OfOperator f := by
  unfold join Parser.join
  cases hleft : Parser.operand? builder left with
  | none => exact .inr (.inr ⟨_, rfl, rfl, .inl rfl⟩)
  | some x =>
    cases hright : Parser.operand? builder right with
    | none => exact .inr (.inr ⟨_, rfl, rfl, .inl rfl⟩)
    | some y =>
      cases hop : Operator.ofSymbol? b with
      | none => exact .inr (.inr ⟨_, rfl, rfl, .inr ⟨b, hop, rfl⟩⟩)
      | some op =>
        rcases offer_cases (Quoted.double [b]) (builder.binary op x y) used s with h | h
        · exact .inl h
        · exact .inr (.inl h)

/-- **A chain takes no more turns than there are bytes**, since each of them moves the cursor. -/
theorem turns_ends {op arg : Grammar} {op' arg' : Parser σ ε α} (hop : Follows builder op op' text low)
    (harg : Follows builder arg arg' text low) (hlow : low ≤ start) {left : Item α} {used n : Nat}
    (hused : start + used ≤ text.length) (hn : text.length - (start + used) ≤ n) (s : Session σ ε) :
    Ends text start (fun fuel => turns builder text fuel op arg left (start + used)) s
      (Parser.chainGo builder op' arg' n (text.drop (start + used)) left used s) := by
  induction n generalizing left used s with
  | zero =>
    have hend : ¬start + used < text.length := by omega
    refine ends_succ ?_
    simp only [turns, if_neg hend]
    exact ends_done rfl hused
  | succ n ih =>
    refine ends_succ ?_
    by_cases hlt : start + used < text.length
    · simp only [turns, if_pos hlt]
      rw [Parser.chainGo, if_neg (by rw [List.drop_eq_nil_iff]; omega)]
      rcases hop.cases (by omega) hused s with
        ⟨item, m, s₁, hparser, hrun, hm⟩ | ⟨why, m, s₁, hparser, hrun, hm⟩ | ⟨f, s₁, hparser, hrun, hf⟩
      · cases m with
        | zero =>
          simp only [hparser]
          rw [ends_bind hrun]
          simp only [Nat.add_zero, if_true]
          exact ends_done rfl hused
        | succ m =>
          have hmoved : ¬start + used + (m + 1) = start + used := by omega
          rw [ends_bind hrun]
          simp only [if_neg hmoved]
          cases hoperator : Parser.operator? builder item with
          | none =>
            simp only [hparser, hoperator]
            exact ends_failed (Nat.add_assoc _ _ _) hm
          | some b =>
            simp only [hparser, hoperator, List.drop_drop]
            have hposition : ∀ k, start + used + (m + 1) + k = start + (used + (m + 1) + k) := fun k => by omega
            rcases harg.cases (by omega) hm s₁ with
              ⟨right, k, s₂, hparser', hrun', hk⟩ | ⟨why, k, s₂, hparser', hrun', hk⟩ | ⟨f, s₂, hparser', hrun', hf⟩
            · simp only [hparser']
              rw [ends_bind hrun']
              rcases join_cases builder b left right (used + (m + 1) + k) s₂ with
                ⟨item, s₃, hwalk, hjoin⟩ | ⟨why, s₃, hwalk, hjoin⟩ | ⟨f, hwalk, hjoin, hf⟩
              · have hleft : text.length - (start + (used + (m + 1) + k)) ≤ n := by omega
                simp only [hjoin]
                rw [ends_bind (settles_const hwalk), ← Nat.add_assoc (start + used) (m + 1) k, hposition k]
                exact ih (hposition k ▸ hk) hleft s₃
              · simp only [hjoin]
                rw [ends_bind (settles_const hwalk)]
                exact ends_failed (hposition k) hk
              · simp only [hjoin]
                exact ends_fault (settles_const hwalk) hf _
            · simp only [hparser']
              rw [ends_bind hrun']
              exact ends_failed (hposition k) hk
            · simp only [hparser']
              exact ends_fault hrun' hf _
      · cases m with
        | zero =>
          simp only [hparser]
          rw [ends_bind hrun]
          simp only [Nat.add_zero, if_true]
          exact ends_done rfl hused
        | succ m =>
          have hmoved : ¬start + used + (m + 1) = start + used := by omega
          simp only [hparser]
          rw [ends_bind hrun]
          simp only [if_neg hmoved]
          exact ends_failed (Nat.add_assoc _ _ _) hm
      · simp only [hparser]
        exact ends_fault hrun hf _
    · simp only [turns, if_neg hlt]
      rw [Parser.chainGo, if_pos (by rw [List.drop_eq_nil_iff]; omega)]
      exact ends_done rfl hused

theorem follows_chain {op arg : Grammar} {op' arg' : Parser σ ε α} (hop : Follows builder op op' text low)
    (harg : Follows builder arg arg' text low) :
    Follows builder (.chain op arg) (Parser.chain builder op' arg') text low := by
  intro start hlow hstart s
  refine ends_succ ?_
  simp only [run]
  rcases harg.cases hlow hstart s with
    ⟨item, used, s₁, hparser, hrun, hused⟩ | ⟨why, used, s₁, hparser, hrun, hused⟩ | ⟨f, s₁, hparser, hrun, hf⟩
  · simp only [Parser.chain, hparser]
    rw [ends_bind hrun, List.drop_drop]
    exact turns_ends hop harg hlow hused (by rw [List.length_drop]) s₁
  · simp only [Parser.chain, hparser]
    rw [ends_bind hrun]
    exact ends_failed rfl hused
  · simp only [Parser.chain, hparser]
    exact ends_fault hrun hf _

end Combinators

/-! ## Formulas -/

section Formulas

theorem follows_operators (ops : List Operator) :
    Follows builder (operators ops) (Parser.choice (ops.map fun op => Parser.operatorSymbol op.symbol)) text low := by
  refine follows_choice ?_
  induction ops with
  | nil => exact .nil
  | cons op ops ih => exact .cons ⟨rfl, follows_afterBlanks .all (follows_symbol op.symbol)⟩ ih

/-- A literal in front takes all of its bytes. -/
theorem length_of_opening {expected rest : Bytes} {s s' : Session σ ε} {used : Nat}
    (h : Parser.opening (α := α) (some (Parser.literal expected)) rest s = (.ok used, s')) : used = expected.length := by
  by_cases hprefix : expected.isPrefixOf rest
  · simp only [Parser.opening, Parser.literal, if_pos hprefix, Prod.mk.injEq, Except.ok.injEq] at h
    exact h.1.symm
  · simp only [Parser.opening, Parser.literal, if_neg hprefix, Prod.mk.injEq, reduceCtorEq, false_and] at h

theorem description_parenthesized :
    Quoted.double [Byte.openParen] ++ bytes " expression" = parenthesized.description := by
  show _ = Quoted.double [Byte.openParen] ++ bytes " " ++ bytes "expression"
  rw [List.append_assoc]
  rfl

/-- The expression in a parenthesis begins behind the byte of the parenthesis. -/
theorem follows_parenthesized (h : Follows builder .expression parser text (low + 1)) :
    Follows builder parenthesized (Parser.parenthesized parser) text low := by
  refine follows_enclosed (.some (follows_literal _)) (fun start hlow _ s used s' hopening => ?_)
    (.some (follows_afterBlanks .all (follows_literal _)))
  have hused : used = 1 := length_of_opening hopening
  exact h.mono (by omega)

theorem follows_factorOf (h : Follows builder .expression parser text (low + 1)) :
    Follows builder .factor (Parser.factorOf builder parser) text low := by
  have hbody : Follows builder (.afterBlanks .all (.choice [parenthesized, .number, .name]))
      (Parser.factorOf builder parser) text low :=
    follows_afterBlanks .all (follows_choice (.cons ⟨description_parenthesized, follows_parenthesized h⟩
      (.cons ⟨rfl, follows_number⟩ (.cons ⟨rfl, follows_name⟩ .nil))))
  intro start hlow hstart s
  refine ends_succ ?_
  simp only [run]
  exact hbody start hlow hstart s

theorem follows_termOf (h : Follows builder .expression parser text (low + 1)) :
    Follows builder .term (Parser.termOf builder parser) text low := by
  intro start hlow hstart s
  refine ends_succ ?_
  simp only [run]
  exact follows_chain (follows_operators [.mul, .div]) (follows_factorOf h) start hlow hstart s

theorem follows_expressionOf (h : Follows builder .expression parser text (low + 1)) :
    Follows builder .expression (Parser.expressionOf builder parser) text low := by
  intro start hlow hstart s
  refine ends_succ ?_
  simp only [run]
  exact follows_chain (follows_operators [.add, .sub]) (follows_termOf h) start hlow hstart s

/-- **Nested expressions**: from a position on, as many levels are enough as there are bytes left. By induction on how
many are left. -/
theorem follows_nested {depth : Nat} (hdepth : text.length - low ≤ depth) :
    Follows builder .expression (Parser.nested builder depth) text (low + 1) := by
  induction depth generalizing low with
  | zero =>
    intro start hlow hstart
    omega
  | succ depth ih => exact follows_expressionOf (ih (by omega))

end Formulas

/-! ## All grammars -/

section Grammars

mutual

/-- **Walks by a grammar end** with what its parser answers. -/
theorem follows_run (builder : Builder σ ε α) (text : Bytes) : (g : Grammar) → Follows builder g (g.parser builder) text 0
  | .literal expected => follows_literal expected
  | .word => follows_word
  | .number => follows_number
  | .name => follows_name
  | .symbol b => follows_symbol b
  | .choice gs => follows_choice (follows_list builder text gs)
  | .enclosed pre inner post =>
    follows_enclosed (follows_option builder text pre)
      (fun _ _ _ _ _ _ _ => (follows_run builder text inner).mono (Nat.zero_le _)) (follows_option builder text post)
  | .afterBlanks blanks inner => follows_afterBlanks blanks (follows_run builder text inner)
  | .chain op arg => follows_chain (follows_run builder text op) (follows_run builder text arg)
  | .expression => fun start _ hstart s =>
    follows_expressionOf (follows_nested (by rw [List.length_drop])) start (Nat.le_refl _) hstart s
  | .term => fun start _ hstart s =>
    follows_termOf (follows_nested (by rw [List.length_drop])) start (Nat.le_refl _) hstart s
  | .factor => fun start _ hstart s =>
    follows_factorOf (follows_nested (by rw [List.length_drop])) start (Nat.le_refl _) hstart s

theorem follows_list (builder : Builder σ ε α) (text : Bytes) : (gs : List Grammar) →
    List.Forall₂ (fun g q => q.1 = g.description ∧ Follows builder g q.2 text 0) gs (Grammar.parserList builder gs)
  | [] => .nil
  | g :: gs => .cons ⟨rfl, follows_run builder text g⟩ (follows_list builder text gs)

theorem follows_option (builder : Builder σ ε α) (text : Bytes) : (g : Option Grammar) →
    Option.Rel (fun g parser => Follows builder g parser text 0) g (Grammar.parserOption builder g)
  | none => .none
  | some g => .some (follows_run builder text g)

end

theorem not_mem_of_ofSymbol? {b : UInt8} (h : Operator.ofSymbol? b = none) :
    b ∉ [Byte.plus, Byte.minus, Byte.star, Byte.slash] := by
  intro hmem
  rw [List.mem_cons, List.mem_cons, List.mem_cons, List.mem_singleton] at hmem
  rcases hmem with rfl | rfl | rfl | rfl <;> cases h

/-- A proper outcome gives a position of the text. -/
theorem Proper.position {outcome : Outcome ε α} {e : Ending ε α} (h : Proper (text.length - start) outcome)
    (hstart : start ≤ text.length) (he : report start outcome = .ok e) : start ≤ e.position ∧ e.position ≤ text.length := by
  cases outcome with
  | done item used | failed why used =>
    cases he
    have hused : used ≤ text.length - start := h
    exact ⟨Nat.le_add_right _ _, show start + used ≤ text.length by omega⟩
  | fault f => cases he

theorem Proper.fault {n : Nat} {outcome : Outcome ε α} {f : ParseFault} (h : Proper n outcome)
    (hf : report start outcome = .error f) :
    f = .operand ∨ ∃ b, b ∉ [Byte.plus, Byte.minus, Byte.star, Byte.slash] ∧ f = .operator b := by
  cases outcome with
  | done item used | failed why used => cases hf
  | fault f' =>
    cases hf
    rcases h with h | ⟨b, hb, h⟩
    · exact .inl h
    · exact .inr ⟨b, not_mem_of_ofSymbol? hb, h⟩

end Grammars

end Cursor

namespace Grammar

open Cursor

/-- **Parsing ends inside the text.** By any grammar and from any position of the text on, the walk over the text ends if
it gets enough fuel, in the way that the parser of the grammar says. If it gives a position, with success or not, then one
between the start and the end of the text. All faults are of operators: an operand that is no value of the builder, or
a byte that is none of the four. -/
theorem parse_ends_inside_text (builder : Builder σ ε α) (g : Grammar) (text : Bytes) {start : Nat}
    (hstart : start ≤ text.length) (s : Session σ ε) :
    ∃ (ending : Except ParseFault (Ending ε α)) (s' : Session σ ε),
      (∃ enough, ∀ fuel ≥ enough, run builder text fuel g start s = some (ending, s')) ∧
      ending = report start (g.parseAt builder text start s).1 ∧ s' = (g.parseAt builder text start s).2 ∧
      (∀ e, ending = .ok e → start ≤ e.position ∧ e.position ≤ text.length) ∧
      ∀ f, ending = .error f →
        f = .operand ∨ ∃ b, b ∉ [Byte.plus, Byte.minus, Byte.star, Byte.slash] ∧ f = .operator b := by
  have hparse : g.parseAt builder text start s = g.parser builder (text.drop start) s := by
    rw [parseAt, if_pos ⟨Int.natCast_nonneg _, Int.ofNat_le.2 hstart⟩, Int.toNat_natCast]
  obtain ⟨hrun, hproper⟩ := follows_run builder text g start (Nat.zero_le _) hstart s
  rw [← hparse] at hrun hproper
  exact ⟨_, _, hrun, rfl, rfl, fun _ => hproper.position hstart, fun _ => hproper.fault⟩

/-- Expressions with nothing between them. -/
def adjoined : Grammar := .chain (.literal []) .expression

/-- Names with percent signs between them. -/
def remainders : Grammar := .chain (.symbol Byte.percent) .name

/-- An operator that can be matched anywhere does not move the cursor, so the chain ends after one expression. A percent
sign is none of the four operators. -/
theorem parse_ends_inside_text_chains :
    (∃ x enough, ∀ fuel ≥ enough, run Formula.builder (bytes " ((a)+ b)c") fuel adjoined 1 ⟨(), none⟩ =
      some (.ok ⟨9, .ok (.value x)⟩, ⟨(), none⟩)) ∧
    ∃ enough, ∀ fuel ≥ enough, run Formula.builder (bytes " a%b") fuel remainders 1 ⟨(), none⟩ =
      some (.error (.operator Byte.percent), ⟨(), none⟩) := by
  have hfault : remainders.parseAt Formula.builder (bytes " a%b") (1 : Nat) ⟨(), none⟩ =
      (.fault (.operator Byte.percent), ⟨(), none⟩) := by cbv
  have hfirst : adjoined.parseAt Formula.builder (bytes " ((a)+ b)c") (1 : Nat) ⟨(), none⟩ =
      (.done (.value (.binary Byte.plus (.name (bytes "a")) (.name (bytes "b")))) 8, ⟨(), none⟩) := by cbv
  constructor
  · obtain ⟨_, _, hrun, rfl, rfl, -⟩ :=
      parse_ends_inside_text Formula.builder adjoined (bytes " ((a)+ b)c") (by decide : 1 ≤ _) ⟨(), none⟩
    rw [hfirst] at hrun
    exact ⟨_, hrun⟩
  · obtain ⟨_, _, hrun, rfl, rfl, -⟩ :=
      parse_ends_inside_text Formula.builder remainders (bytes " a%b") (by decide : 1 ≤ _) ⟨(), none⟩
    rw [hfault] at hrun
    exact hrun

end Grammar

end ComplexFormula
