import ComplexFormula.Proofs.Grammar.Scan

/-!
# Every reader does what its scan says

A reader with a builder, started in some state, *answers* a scan (`Answers`) if the builder's work is to fold the
trees of the scan, from left to right and up to its first refusal, and if without a refusal the outcome is that of the
scan. Every reader answers its scan (`expression_answers`). This rests on two facts. At most one of the alternatives of
a factor can begin with a given byte, so a refusal inside one of them reaches no other; and reading an operator calls
no builder.
-/

namespace ComplexFormula

variable {σ ε α : Type}

/-- What a reader answers that runs a builder from `state` on over a text with the given scan. -/
inductive Answers (builder : Builder σ ε α) (state : σ) : Scan → Outcome ε α × Session σ ε → Prop
  | found {x : ParseTree} {used : Nat} {a : α} {state' : σ} (h : x.fold builder state = (.ok a, state')) :
      Answers builder state (.found x used) (.done (.value a) used, ⟨state', none⟩)
  | stopped {xs : List ParseTree} {why : Failure Empty} {used : Nat} {values : List α} {state' : σ}
      (h : ParseTree.foldAll builder xs state = (.ok values, state')) :
      Answers builder state (.stopped xs why used) (.failed why.lift used, ⟨state', none⟩)
  /-- The builder refused on its way through the trees; how the reader fails is of no matter then. -/
  | refused {scan : Scan} {e : ε} {why : Failure ε} {used : Nat} {state' : σ}
      (h : ParseTree.foldAll builder scan.trees state = (.error e, state')) :
      Answers builder state scan (.failed why used, ⟨state', some e⟩)

namespace ParseTree

variable {builder : Builder σ ε α} {s s' s'' : σ} {e : ε}

theorem foldAll_cons_error {x : ParseTree} (xs : List ParseTree) (h : x.fold builder s = (.error e, s')) :
    foldAll builder (x :: xs) s = (.error e, s') := Build.bind_error _ h

theorem foldAll_cons_ok_error {x : ParseTree} {xs : List ParseTree} {a : α} (h : x.fold builder s = (.ok a, s'))
    (hxs : foldAll builder xs s' = (.error e, s'')) : foldAll builder (x :: xs) s = (.error e, s'') := by
  rw [foldAll, Build.bind_ok _ h, Build.bind_error _ hxs]

theorem foldAll_cons_ok_ok {x : ParseTree} {xs : List ParseTree} {a : α} {values : List α}
    (h : x.fold builder s = (.ok a, s')) (hxs : foldAll builder xs s' = (.ok values, s'')) :
    foldAll builder (x :: xs) s = (.ok (a :: values), s'') := by
  rw [foldAll, Build.bind_ok _ h, Build.bind_ok _ hxs]
  rfl

theorem fold_of_foldAll_singleton {x : ParseTree} (h : foldAll builder [x] s = (.error e, s')) :
    x.fold builder s = (.error e, s') := by
  rcases hx : x.fold builder s with ⟨e' | a, s₁⟩
  · rw [foldAll_cons_error [] hx] at h
    cases h
    rfl
  · rw [foldAll_cons_ok_ok hx rfl] at h
    cases h

theorem fold_operation_left {op : Operator} {l r : ParseTree} (h : l.fold builder s = (.error e, s')) :
    (operation op l r).fold builder s = (.error e, s') := Build.bind_error _ h

theorem fold_operation_right {op : Operator} {l r : ParseTree} {a : α} (hl : l.fold builder s = (.ok a, s'))
    (hr : r.fold builder s' = (.error e, s'')) : (operation op l r).fold builder s = (.error e, s'') := by
  rw [fold, Build.bind_ok _ hl, Build.bind_error _ hr]

theorem fold_operation_ok {op : Operator} {l r : ParseTree} {a b : α} (hl : l.fold builder s = (.ok a, s'))
    (hr : r.fold builder s' = (.ok b, s'')) :
    (operation op l r).fold builder s = builder.binary op a b s'' := by
  rw [fold, Build.bind_ok _ hl, Build.bind_ok _ hr]

end ParseTree

/-! ## Combinators -/

namespace Parser

section Combinators

variable {s s' : Session σ ε} {text : Bytes} {item : Item α} {why : Failure ε} {used : Nat}

theorem afterBlanks_done {blanks : Blanks} (d : Bytes) {inner : Parser σ ε α}
    (h : inner (text.drop (blanks.count text)) s = (.done item used, s')) :
    afterBlanks blanks d inner text s = (.done item (blanks.count text + used), s') := by
  simp only [afterBlanks, h]

theorem afterBlanks_failed {blanks : Blanks} (d : Bytes) {inner : Parser σ ε α}
    (h : inner (text.drop (blanks.count text)) s = (.failed why used, s')) :
    afterBlanks blanks d inner text s =
      (.failed (why.under d) (if used = 0 then 0 else blanks.count text + used), s') := by
  simp only [afterBlanks, h]

/-- A parser that cannot begin at a text: it fails there at once and calls no builder. -/
def Idle (p : Parser σ ε α) (text : Bytes) : Prop := ∀ s, ∃ why, p text s = (.failed why 0, s)

variable {descriptions : List Bytes} {d : Bytes} {p : Parser σ ε α} {rest : List (Bytes × Parser σ ε α)}
  {kept : Option (Failure ε × Nat)}

theorem choiceGo_idle (h : p.Idle text) :
    choiceGo descriptions text ((d, p) :: rest) kept s = choiceGo descriptions text rest kept s := by
  obtain ⟨why, hp⟩ := h s
  simp only [choiceGo, hp, if_pos]

theorem choiceGo_done (h : p text s = (.done item used, s')) :
    choiceGo descriptions text ((d, p) :: rest) kept s = (.done item used, s') := by
  simp only [choiceGo, h]

/-- A failure followed by alternatives that cannot begin is the failure of the choice. -/
theorem choiceGo_failed (h : p text s = (.failed why used, s')) (hidle : ∀ q ∈ rest, q.2.Idle text) :
    choiceGo descriptions text ((d, p) :: rest) none s =
      if used = 0 then (.failed ⟨[], .oneOfExpected descriptions⟩ 0, s') else (.failed (why.under d) used, s') := by
  have hrest : ∀ kept, choiceGo descriptions text rest kept s' = choiceGo descriptions text [] kept s' := by
    intro kept
    induction rest with
    | nil => rfl
    | cons q rest ih =>
      rw [show q = (q.1, q.2) from rfl, choiceGo_idle (hidle q List.mem_cons_self)]
      exact ih fun r hr => hidle r (List.mem_cons_of_mem _ hr)
  simp only [choiceGo, h, hrest]
  split <;> simp [choiceGo]

end Combinators

/-! ## Operators -/

section Operators

variable {text : Bytes}

theorem afterBlanks_symbol (d : Bytes) (b : UInt8) (s : Session σ ε)
    (h : (text.drop (Blanks.all.count text)).head? = some b) :
    afterBlanks (α := α) .all d (symbol b) text s = (.done (.symbol b) (Blanks.all.count text + 1), s) := by
  obtain ⟨rest, hrest⟩ := List.head?_eq_some_iff.1 h
  apply afterBlanks_done
  rw [hrest, symbol, if_pos rfl]

theorem idle_afterBlanks_symbol (d : Bytes) (b : UInt8)
    (h : (text.drop (Blanks.all.count text)).head? ≠ some b) :
    Idle (afterBlanks (σ := σ) (ε := ε) (α := α) .all d (symbol b)) text := by
  intro s
  have hsymbol : symbol (α := α) b (text.drop (Blanks.all.count text)) s =
      (.failed ⟨[], .literalExpected [b]⟩ 0, s) := by
    cases hrest : text.drop (Blanks.all.count text) with
    | nil => rfl
    | cons c rest =>
      rw [hrest] at h
      exact if_neg fun hbc => h (by rw [hbc]; rfl)
  exact ⟨_, afterBlanks_failed d hsymbol⟩

/-- A parser that finds one of the given operators behind blanks, calls no builder, and is idle otherwise. -/
def ReadsOperators (ops : List Operator) (op : Parser σ ε α) : Prop :=
  ∀ text, (∀ o n, Scan.operator? ops text = some (o, n) → ∀ s, op text s = (.done (.symbol o.symbol) n, s)) ∧
    (Scan.operator? ops text = none → op.Idle text)

/-- Choosing among operators finds the one that stands there. -/
theorem readsOperators_choice (ops : List Operator) :
    ReadsOperators (σ := σ) (ε := ε) (α := α) ops (choice (ops.map fun op => operatorSymbol op.symbol)) := by
  intro text
  have hgo : ∀ (descriptions : List Bytes) (s : Session σ ε),
      (∀ o n, Scan.operator? ops text = some (o, n) →
        choiceGo (α := α) descriptions text (ops.map fun op => operatorSymbol op.symbol) none s =
          (.done (.symbol o.symbol) n, s)) ∧
      (Scan.operator? ops text = none →
        choiceGo (α := α) descriptions text (ops.map fun op => operatorSymbol op.symbol) none s =
          (.failed ⟨[], .oneOfExpected descriptions⟩ 0, s)) := by
    intro descriptions s
    induction ops with
    | nil => exact ⟨fun o n h => (by cases h), fun _ => rfl⟩
    | cons op ops ih =>
      simp only [Scan.operator?, List.find?_cons, List.map_cons] at ih ⊢
      by_cases hop : (text.drop (Blanks.all.count text)).head? = some op.symbol
      · simp only [hop, decide_true, Option.map_some, Option.some.injEq, Prod.mk.injEq]
        refine ⟨?_, fun h => by cases h⟩
        rintro _ _ ⟨rfl, rfl⟩
        exact choiceGo_done (afterBlanks_symbol _ _ s hop)
      · simp only [hop, decide_false]
        rw [operatorSymbol, choiceGo_idle (idle_afterBlanks_symbol _ _ hop)]
        exact ih
  exact ⟨fun o n h s => (hgo _ s).1 o n h, fun h s => ⟨_, (hgo _ s).2 h⟩⟩

theorem readsOperators_sumOperator :
    ReadsOperators (σ := σ) (ε := ε) (α := α) Scan.sumOperators sumOperator := readsOperators_choice _

theorem readsOperators_productOperator :
    ReadsOperators (σ := σ) (ε := ε) (α := α) Scan.productOperators productOperator := readsOperators_choice _

end Operators

/-! ## Chains -/

section Chains

variable {builder : Builder σ ε α} {ops : List Operator} {op arg : Parser σ ε α} {scan : Bytes → Scan}

/-- A builder that refuses inside the first operand refuses in the whole chain. -/
theorem foldAll_chainGo_error (ops : List Operator) (scan : Bytes → Scan) {state state' : σ} {e : ε} :
    ∀ (turns : Nat) (text : Bytes) (left : ParseTree) (used : Nat), left.fold builder state = (.error e, state') →
      ParseTree.foldAll builder (Scan.chainGo ops scan turns text left used).trees state = (.error e, state')
  | 0, _, _, _, h => ParseTree.foldAll_cons_error [] h
  | turns + 1, text, left, used, h => by
    unfold Scan.chainGo
    split
    · exact ParseTree.foldAll_cons_error [] h
    · split
      · exact ParseTree.foldAll_cons_error _ h
      · exact foldAll_chainGo_error ops scan turns _ _ _ (ParseTree.fold_operation_left h)

theorem join_value (builder : Builder σ ε α) (o : Operator) (a b : α) (used : Nat) (s : Session σ ε) :
    join builder o.symbol (.value a) (.value b) used s =
      offer (Quoted.double [o.symbol]) (builder.binary o a b) used s := by
  simp only [join, operand?, Operator.ofSymbol?_symbol]

theorem offer_ok {label : Bytes} {work : Build σ ε α} {used : Nat} {state state' : σ} {a : α}
    (h : work state = (.ok a, state')) :
    offer label work used ⟨state, none⟩ = (.done (.value a) used, ⟨state', none⟩) := by
  have hrun : work.run.run state = (.ok a, state') := h
  simp only [offer, Session.call, hrun]

theorem offer_error {label : Bytes} {work : Build σ ε α} {used : Nat} {state state' : σ} {e : ε}
    (h : work state = (.error e, state')) :
    offer label work used ⟨state, none⟩ = (.failed ⟨[label], .refused e⟩ used, ⟨state', some e⟩) := by
  have hrun : work.run.run state = (.error e, state') := h
  simp only [offer, Session.call, hrun]
  rfl

/-- One turn of a chain, once the operator is there. -/
theorem chainGo_turn {turns n : Nat} {text : Bytes} {left : Item α} {used : Nat} {s : Session σ ε} {o : Operator}
    (hop : op text s = (.done (.symbol o.symbol) n, s)) (hn : 0 < n) (htext : text ≠ []) :
    chainGo builder op arg (turns + 1) text left used s =
      match arg (text.drop n) s with
      | (.fault f, s) => (.fault f, s)
      | (.failed why m, s) => (.failed (why.under (bytes "arg")) (used + n + m), s)
      | (.done right m, s) =>
        match join builder o.symbol left right (used + n + m) s with
        | (.done item total, s) => chainGo builder op arg turns (text.drop (n + m)) item total s
        | other => other := by
  obtain ⟨n, rfl⟩ := Nat.exists_eq_succ_of_ne_zero (Nat.ne_of_gt hn)
  rw [chainGo, if_neg htext, hop]
  rfl

/-- A chain without a further operator is done. -/
theorem chainGo_end {turns : Nat} {text : Bytes} {left : Item α} {used : Nat} {s : Session σ ε} (h : op.Idle text) :
    chainGo builder op arg turns text left used s = (.done left used, s) := by
  cases turns with
  | zero => rfl
  | succ turns =>
    obtain ⟨why, hop⟩ := h s
    rw [chainGo, hop]
    split <;> rfl

theorem chainGo_answers (hop : ReadsOperators ops op)
    (harg : ∀ text state, Answers builder state (scan text) (arg text ⟨state, none⟩)) {state : σ} :
    ∀ (turns : Nat) (text : Bytes) (left : ParseTree) (used : Nat) (a : α) (state₁ : σ),
      left.fold builder state = (.ok a, state₁) →
      Answers builder state (Scan.chainGo ops scan turns text left used)
        (chainGo builder op arg turns text (.value a) used ⟨state₁, none⟩)
  | 0, _, _, _, _, _, hleft => .found hleft
  | turns + 1, text, left, used, a, state₁, hleft => by
    rw [Scan.chainGo]
    cases hscan : Scan.operator? ops text with
    | none =>
      rw [chainGo_end ((hop text).2 hscan)]
      exact .found hleft
    | some found =>
      obtain ⟨o, n⟩ := found
      obtain ⟨_, hn, rest, hrest⟩ := Scan.operator?_eq_some hscan
      have htext : text ≠ [] := by
        rintro rfl
        simp at hrest
      rw [chainGo_turn ((hop text).1 o n hscan _) (by omega) htext]
      have hright := harg (text.drop n) state₁
      simp only
      generalize scan (text.drop n) = result at hright
      generalize arg (text.drop n) ⟨state₁, none⟩ = answer at hright
      cases hright with
      | @found right m b state₂ hb =>
        simp only [join_value]
        rcases hwork : builder.binary o a b state₂ with ⟨e | c, state₃⟩
        · rw [offer_error hwork]
          apply Answers.refused
          apply foldAll_chainGo_error
          rw [ParseTree.fold_operation_ok hleft hb, hwork]
        · rw [offer_ok hwork]
          apply chainGo_answers hop harg
          rw [ParseTree.fold_operation_ok hleft hb, hwork]
      | stopped h => exact .stopped (ParseTree.foldAll_cons_ok_ok hleft h)
      | refused h =>
        apply Answers.refused
        cases result with
        | found right m =>
          apply foldAll_chainGo_error
          exact ParseTree.fold_operation_right hleft (ParseTree.fold_of_foldAll_singleton h)
        | stopped xs why' m => exact ParseTree.foldAll_cons_ok_error hleft h

/-- **Chains** answer their scans if their operands do. -/
theorem chain_answers (hop : ReadsOperators ops op)
    (harg : ∀ text state, Answers builder state (scan text) (arg text ⟨state, none⟩)) (text : Bytes) (state : σ) :
    Answers builder state (Scan.chain ops scan text) (chain builder op arg text ⟨state, none⟩) := by
  have hfirst := harg text state
  unfold Scan.chain chain
  generalize scan text = result at hfirst
  generalize arg text ⟨state, none⟩ = answer at hfirst
  cases hfirst with
  | found h => exact chainGo_answers hop harg _ _ _ _ _ _ h
  | stopped h => exact .stopped h
  | refused h =>
    apply Answers.refused
    cases result with
    | found x used => exact foldAll_chainGo_error _ _ _ _ _ _ (ParseTree.fold_of_foldAll_singleton h)
    | stopped xs why' used => exact h

end Chains

/-! ## Factors -/

section Factors

variable {builder : Builder σ ε α} {expression : Parser σ ε α} {scan : Bytes → Scan} {text : Bytes}

/-- A number begins with a digit or a point, so it does not begin like a word or a parenthesis. -/
theorem head_of_numberLength (h : numberLength text ≠ 0) :
    ∃ b rest, text = b :: rest ∧ (Byte.isDigit b ∨ b = Byte.point) := by
  cases text with
  | nil => exact absurd rfl h
  | cons b rest =>
    refine ⟨b, rest, rfl, ?_⟩
    by_cases hd : Byte.isDigit b
    · exact .inl hd
    · by_cases hp : b = Byte.point
      · exact .inr hp
      · refine absurd ?_ h
        simp only [numberLength, List.takeWhile_cons, hd, Bool.false_eq_true, if_false, List.length_nil, List.drop_zero]
        split
        · rename_i heq
          exact absurd (List.cons.inj heq).1 hp
        · simp

theorem not_letter_of_number {b : UInt8} (h : Byte.isDigit b ∨ b = Byte.point) :
    Byte.isLetter b = false ∧ b ≠ Byte.openParen := by
  rcases h with h | rfl
  · simp only [Byte.isDigit, Byte.isLetter] at h ⊢
    grind
  · decide

theorem literal_singleton (b : UInt8) (text : Bytes) (s : Session σ ε) :
    literal (α := α) [b] text s =
      if text.head? = some b then (.done (.literal [b]) 1, s) else (.failed ⟨[], .literalExpected [b]⟩ 0, s) := by
  cases text with
  | nil => rfl
  | cons c rest =>
    by_cases h : c = b
    · simp [literal, List.isPrefixOf, h]
    · have h' : b ≠ c := Ne.symm h
      simp [literal, List.isPrefixOf, h, h']

theorem idle_parenthesized (h : text.head? ≠ some Byte.openParen) : (parenthesized expression).Idle text := by
  intro s
  exact ⟨_, by simp only [parenthesized, enclosed, opening, literal_singleton, if_neg h]; rfl⟩

theorem idle_number (h : numberLength text = 0) : (number builder).Idle text := by
  intro s
  exact ⟨⟨[], .numberExpected⟩, by rw [number, h]; rfl⟩

theorem idle_name (h : ∀ b ∈ text.head?, Byte.isLetter b = false) : (name builder).Idle text := by
  intro s
  cases text with
  | nil => exact ⟨_, rfl⟩
  | cons b rest =>
    have hb := h b rfl
    exact ⟨_, by simp [name, word, hb]; rfl⟩

/-- A closing parenthesis behind blanks. -/
theorem afterBlanks_literal (d : Bytes) (b : UInt8) (text : Bytes) (s : Session σ ε) :
    afterBlanks (α := α) .all d (literal [b]) text s =
      if (text.drop (Blanks.all.count text)).head? = some b then
        (.done (.literal [b]) (Blanks.all.count text + 1), s)
      else (.failed ⟨[d], .literalExpected [b]⟩ 0, s) := by
  have hliteral := literal_singleton (α := α) b (text.drop (Blanks.all.count text)) s
  split
  · rename_i h
    exact afterBlanks_done d (hliteral.trans (if_pos h))
  · rename_i h
    exact afterBlanks_failed d (hliteral.trans (if_neg h))

/-- What an opening parenthesis leads to. -/
theorem parenthesized_cons (expression : Parser σ ε α) (inner : Bytes) (s : Session σ ε) :
    parenthesized expression (Byte.openParen :: inner) s =
      match expression inner s with
      | (.fault f, s) => (.fault f, s)
      | (.failed why used, s) => (.failed (why.under (bytes "of")) (if used = 0 then 0 else 1 + used), s)
      | (.done item used, s) =>
        if ((inner.drop used).drop (Blanks.all.count (inner.drop used))).head? = some Byte.closeParen then
          (.done item (1 + used + (Blanks.all.count (inner.drop used) + 1)), s)
        else
          (.failed ⟨[bytes "post", Quoted.double [Byte.closeParen]], .literalExpected [Byte.closeParen]⟩ (1 + used),
            s) := by
  have hopen : opening (α := α) (some (literal [Byte.openParen])) (Byte.openParen :: inner) s = (.ok 1, s) := by
    simp [opening, literal_singleton]
  have hdrop : ∀ used, (Byte.openParen :: inner).drop (1 + used) = inner.drop used := by
    intro used
    rw [Nat.add_comm]
    rfl
  rw [parenthesized, enclosed, hopen]
  rcases hinner : expression inner s with ⟨⟨item, used⟩ | _ | _, s₁⟩
  · simp only [List.drop_one, List.tail_cons, hinner, hdrop, afterBlanks_literal]
    by_cases hclose : ((inner.drop used).drop (Blanks.all.count (inner.drop used))).head? = some Byte.closeParen
    · simp only [if_pos hclose]
    · simp only [if_neg hclose]
      rfl
  · simp only [List.drop_one, List.tail_cons, hinner]
  · simp only [List.drop_one, List.tail_cons, hinner]

theorem trees_declined (d : Bytes) (xs : List ParseTree) (why : Failure Empty) (used : Nat) :
    (Scan.declined d xs why used).trees = xs := by
  unfold Scan.declined
  split <;> rfl

theorem trees_parenthesized (scan : Bytes → Scan) (inner : Bytes) :
    (Scan.parenthesized scan inner).trees = (scan inner).trees := by
  unfold Scan.parenthesized
  cases scan inner with
  | stopped xs why used => exact trees_declined ..
  | found x used =>
    dsimp only
    split
    · rfl
    · exact trees_declined ..

/-- The only alternative that could be taken fails, and so does the choice. -/
theorem declined_answers {d : Bytes} {p : Parser σ ε α} {rest : List (Bytes × Parser σ ε α)} {s : Session σ ε}
    {why : Failure Empty} {used : Nat} {xs : List ParseTree} {values : List α} {state state' : σ}
    (hp : p text s = (.failed why.lift used, ⟨state', none⟩)) (hidle : ∀ q ∈ rest, q.2.Idle text)
    (h : ParseTree.foldAll builder xs state = (.ok values, state')) :
    Answers builder state (Scan.declined d xs why used)
      (choiceGo Scan.alternatives text ((d, p) :: rest) none s) := by
  rw [choiceGo_failed hp hidle, Scan.declined]
  split
  · exact .stopped h
  · exact .stopped h

/-- Where the builder refused, the choice fails, however it does. -/
theorem refused_answers {d : Bytes} {p : Parser σ ε α} {rest : List (Bytes × Parser σ ε α)} {s : Session σ ε}
    {why : Failure ε} {used : Nat} {result : Scan} {e : ε} {state state' : σ}
    (hp : p text s = (.failed why used, ⟨state', some e⟩)) (hidle : ∀ q ∈ rest, q.2.Idle text)
    (h : ParseTree.foldAll builder result.trees state = (.error e, state')) :
    Answers builder state result (choiceGo Scan.alternatives text ((d, p) :: rest) none s) := by
  rw [choiceGo_failed hp hidle]
  split
  · exact .refused h
  · exact .refused h

/-- The only alternative that could be taken is a call of the builder. -/
theorem offered_answers {d label : Bytes} {p : Parser σ ε α} {rest : List (Bytes × Parser σ ε α)} {x : ParseTree}
    {used : Nat} {state : σ} (hp : p text ⟨state, none⟩ = offer label (x.fold builder) used ⟨state, none⟩)
    (hidle : ∀ q ∈ rest, q.2.Idle text) :
    Answers builder state (.found x used) (choiceGo Scan.alternatives text ((d, p) :: rest) none ⟨state, none⟩) := by
  rcases hwork : x.fold builder state with ⟨e | a, state'⟩
  · rw [offer_error hwork] at hp
    exact refused_answers hp hidle (ParseTree.foldAll_cons_error [] hwork)
  · rw [offer_ok hwork] at hp
    rw [choiceGo_done hp]
    exact .found hwork

theorem number_answers (hnumber : numberLength text ≠ 0) (state : σ) :
    Answers builder state (Scan.number text)
      (choiceGo Scan.alternatives text [(bytes "number", number builder), (bytes "name", name builder)] none
        ⟨state, none⟩) := by
  have hidle : ∀ q ∈ [(bytes "name", name builder)], q.2.Idle text := by
    intro q hq
    cases List.mem_singleton.1 hq
    apply idle_name
    obtain ⟨b, rest, rfl, hb⟩ := head_of_numberLength hnumber
    rintro _ ⟨⟩
    exact (not_letter_of_number hb).1
  have hrun : ∀ s : Session σ ε, number builder text s =
      if (Numeral.form? (text.take (numberLength text))).isSome then
        offer (bytes "number") (builder.number (text.take (numberLength text))) (numberLength text) s
      else (.failed ⟨[bytes "number"], .malformedNumber (text.take (numberLength text))⟩ (numberLength text), s) := by
    intro s
    unfold number
    split
    · contradiction
    · rfl
  unfold Scan.number
  dsimp only
  split
  · rename_i hform
    exact offered_answers ((hrun ⟨state, none⟩).trans (if_pos hform)) hidle
  · rename_i hform
    exact declined_answers ((hrun ⟨state, none⟩).trans (if_neg hform)) hidle rfl

theorem name_answers (text : Bytes) (state : σ) :
    Answers builder state (Scan.name text)
      (choiceGo Scan.alternatives text [(bytes "name", name builder)] none ⟨state, none⟩) := by
  have hidle : ∀ q ∈ ([] : List (Bytes × Parser σ ε α)), q.2.Idle text := by simp
  unfold Scan.name
  cases text with
  | nil => exact declined_answers rfl hidle rfl
  | cons b rest =>
    dsimp only
    split
    · rename_i hb
      rcases htail : wordTail rest with ⟨n, _ | _⟩
      · have hrun : name builder (b :: rest) ⟨state, none⟩ = (.failed ⟨[], .badCharacter⟩ (n + 1), ⟨state, none⟩) := by
          simp [name, word, hb, htail]
        exact declined_answers hrun hidle rfl
      · have hrun : name builder (b :: rest) ⟨state, none⟩ =
            offer (bytes "name") (builder.name ((b :: rest).take (n + 1))) (n + 1) ⟨state, none⟩ := by
          simp [name, word, hb, htail]
        exact offered_answers hrun hidle
    · rename_i hb
      have hrun : name builder (b :: rest) ⟨state, none⟩ = (.failed ⟨[], .wordExpected⟩ 0, ⟨state, none⟩) := by
        simp [name, word, hb]
      exact declined_answers hrun hidle rfl

theorem parenthesized_answers
    (hexpression : ∀ text state, Answers builder state (scan text) (expression text ⟨state, none⟩)) (inner : Bytes)
    (state : σ) :
    Answers builder state (Scan.parenthesized scan inner)
      (choiceGo Scan.alternatives (Byte.openParen :: inner)
        [(Scan.parenthesisDescription, parenthesized expression), (bytes "number", number builder),
          (bytes "name", name builder)] none ⟨state, none⟩) := by
  -- no number and no word begins with a parenthesis
  have hidle : ∀ q ∈ [(bytes "number", number builder), (bytes "name", name builder)],
      q.2.Idle (Byte.openParen :: inner) := by
    intro q hq
    rcases List.mem_cons.1 hq with rfl | hq
    · apply idle_number
      refine Classical.byContradiction fun hne => ?_
      obtain ⟨b, rest, hcons, hb⟩ := head_of_numberLength hne
      exact (not_letter_of_number hb).2 (List.cons.inj hcons).1.symm
    · cases List.mem_singleton.1 hq
      apply idle_name
      rintro b ⟨⟩
      rfl
  have hinner := hexpression inner state
  have hparen := parenthesized_cons expression inner ⟨state, none⟩
  have htrees := trees_parenthesized scan inner
  unfold Scan.parenthesized at htrees ⊢
  generalize scan inner = result at hinner htrees
  generalize expression inner ⟨state, none⟩ = answer at hinner hparen
  cases hinner with
  | found h =>
    dsimp only at hparen ⊢
    split
    · rename_i hclose
      rw [if_pos hclose] at hparen
      rw [choiceGo_done hparen]
      exact .found h
    · rename_i hclose
      rw [if_neg hclose] at hparen
      exact declined_answers hparen hidle (ParseTree.foldAll_cons_ok_ok h rfl)
  | stopped h => exact declined_answers hparen hidle h
  | refused h => exact refused_answers hparen hidle (by rw [htrees, h])

/-- The alternatives of a factor, tried in turn. -/
theorem choice_answers (hexpression : ∀ text state, Answers builder state (scan text) (expression text ⟨state, none⟩))
    (text : Bytes) (state : σ) :
    Answers builder state (Scan.atom scan text)
      (choice [(Scan.parenthesisDescription, parenthesized expression), (bytes "number", number builder),
        (bytes "name", name builder)] text ⟨state, none⟩) := by
  show Answers builder state (Scan.atom scan text) (choiceGo Scan.alternatives text _ none ⟨state, none⟩)
  unfold Scan.atom
  split
  · rename_i hhead
    obtain ⟨inner, rfl⟩ := List.head?_eq_some_iff.1 hhead
    exact parenthesized_answers hexpression inner state
  · rename_i hhead
    rw [choiceGo_idle (idle_parenthesized hhead)]
    split
    · rename_i hnumber
      rw [choiceGo_idle (idle_number hnumber)]
      exact name_answers text state
    · rename_i hnumber
      exact number_answers hnumber state

/-- **Factors** answer their scans if expressions do. -/
theorem factorOf_answers
    (hexpression : ∀ text state, Answers builder state (scan text) (expression text ⟨state, none⟩)) (text : Bytes)
    (state : σ) : Answers builder state (Scan.factor scan text) (factorOf builder expression text ⟨state, none⟩) := by
  have h := choice_answers hexpression (text.drop (Blanks.all.count text)) state
  unfold Scan.factor factorOf
  dsimp only
  rw [← Scan.parenthesisDescription]
  generalize Scan.atom scan _ = result at h ⊢
  generalize hanswer : choice _ (text.drop (Blanks.all.count text)) ⟨state, none⟩ = answer at h
  cases h with
  | found h =>
    rw [afterBlanks_done _ hanswer]
    exact .found h
  | stopped h =>
    rw [afterBlanks_failed _ hanswer]
    exact .stopped h
  | refused h =>
    rw [afterBlanks_failed _ hanswer]
    apply Answers.refused
    cases result with
    | found x used => exact h
    | stopped xs why used => exact h

end Factors

/-! ## Levels -/

theorem expressionOf_answers {builder : Builder σ ε α} {expression : Parser σ ε α} {scan : Bytes → Scan}
    (hexpression : ∀ text state, Answers builder state (scan text) (expression text ⟨state, none⟩)) (text : Bytes)
    (state : σ) : Answers builder state (Scan.sum scan text) (expressionOf builder expression text ⟨state, none⟩) := by
  have hterm : ∀ text state,
      Answers builder state (Scan.term scan text) (termOf builder expression text ⟨state, none⟩) :=
    chain_answers readsOperators_productOperator (factorOf_answers hexpression)
  exact chain_answers readsOperators_sumOperator hterm text state

theorem nested_answers (builder : Builder σ ε α) (depth : Nat) :
    ∀ text state, Answers builder state (Scan.nested depth text) (nested builder depth text ⟨state, none⟩) := by
  induction depth with
  | zero => exact fun _ _ => .stopped rfl
  | succ depth ih => exact expressionOf_answers ih

/-- **Expressions** answer their scans. -/
theorem expression_answers (builder : Builder σ ε α) (text : Bytes) (state : σ) :
    Answers builder state (Scan.expression text) (expression builder text ⟨state, none⟩) :=
  expressionOf_answers (nested_answers builder text.length) text state

end Parser

end ComplexFormula
