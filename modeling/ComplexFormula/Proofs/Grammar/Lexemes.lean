import ComplexFormula.Grammar.Combinators
import ComplexFormula.Proofs.Text.Utf8

/-!
# Blanks, numbers and names

The smallest parts of a formula, as sets of texts, and what the scanning functions find of them. A scan of a text takes
a number or a name off its front (`exists_number`, `exists_nameTail`), and it takes the whole of one that is followed by
something that cannot go on with it (`Delimited`; `numberLength_append`, `wordTail_append`).
-/

namespace ComplexFormula

namespace Lexeme

/-! ## The sets -/

def IsBlank (b : UInt8) : Prop :=
  b = Byte.space ∨ b = Byte.tab ∨ b = Byte.carriageReturn ∨ b = Byte.lineFeed

instance : DecidablePred IsBlank := fun _ => inferInstanceAs (Decidable (_ ∨ _))

/-- Any run of blanks. -/
def Blank (w : Bytes) : Prop := ∀ b ∈ w, IsBlank b

def Digits (w : Bytes) : Prop := ∀ b ∈ w, Byte.isDigit b = true

/-- Digits with an optional point, at least one of them. -/
inductive Mantissa : Bytes → Prop
  | whole {w : Bytes} (hw : Digits w) (hne : w ≠ []) : Mantissa w
  | point {w f : Bytes} (hw : Digits w) (hne : w ≠ []) (hf : Digits f) : Mantissa (w ++ Byte.point :: f)
  | fraction {f : Bytes} (hf : Digits f) (hne : f ≠ []) : Mantissa (Byte.point :: f)

/-- A mark, small or capital, an optional sign and digits; or nothing. -/
inductive Exponent : Bytes → Prop
  | absent : Exponent []
  | present {mark : UInt8} {sign digits : Bytes} (hmark : mark = Byte.letterE ∨ mark = 69)
      (hsign : sign = [] ∨ sign = [Byte.plus] ∨ sign = [Byte.minus]) (hdigits : Digits digits) (hne : digits ≠ []) :
      Exponent (mark :: (sign ++ digits))

inductive Number : Bytes → Prop
  | mk {m e : Bytes} (hm : Mantissa m) (he : Exponent e) : Number (m ++ e)

/-- What a name may go on with: letters, digits, underscores, and characters beyond ASCII other than the replacement
character. -/
inductive NameTail : Bytes → Prop
  | nil : NameTail []
  | byte {b : UInt8} {w : Bytes} (hb : Byte.isLetter b ∨ Byte.isDigit b) (hw : NameTail w) : NameTail (b :: w)
  | char {c : Char} {w : Bytes} (hc : 128 ≤ c.toNat) (hne : c.toNat ≠ 0xFFFD) (hw : NameTail w) :
      NameTail (String.utf8EncodeChar c ++ w)

inductive Name : Bytes → Prop
  | mk {b : UInt8} {w : Bytes} (hb : Byte.isLetter b) (hw : NameTail w) : Name (b :: w)

/-- No number and no name goes on with this text. -/
def Delimited (rest : Bytes) : Prop :=
  ∀ b ∈ rest.head?, Byte.isLetter b = false ∧ Byte.isDigit b = false ∧ b ≠ Byte.point ∧ b < 128

/-! ## Runs -/

section Runs

variable {p : UInt8 → Bool} {w rest : Bytes}

theorem takeWhile_append (hw : ∀ b ∈ w, p b = true) (hrest : ∀ b ∈ rest.head?, p b = false) :
    (w ++ rest).takeWhile p = w := by
  have hnil : rest.takeWhile p = [] := by
    cases rest with
    | nil => rfl
    | cons b rest => simp [hrest b rfl]
  rw [List.takeWhile_append_of_pos hw, hnil, List.append_nil]

/-- A text is its longest run of bytes of some kind and a rest that begins with no such byte. -/
theorem exists_takeWhile (p : UInt8 → Bool) (text : Bytes) :
    ∃ w rest, text = w ++ rest ∧ (∀ b ∈ w, p b = true) ∧ ∀ b ∈ rest.head?, p b = false := by
  refine ⟨text.takeWhile p, text.dropWhile p, List.takeWhile_append_dropWhile.symm, ?_, ?_⟩
  · exact List.all_eq_true.1 List.all_takeWhile
  · intro b hb
    have := List.head?_dropWhile_not p text
    rw [Option.mem_def.1 hb] at this
    simpa using this

end Runs

/-! ## Blanks -/

theorem contains_all_iff (b : UInt8) : Blanks.all.contains b = true ↔ IsBlank b := by
  have key : ∀ n < 256, Blanks.all.contains (UInt8.ofNat n) =
      decide (n = 32 ∨ n = 9 ∨ n = 13 ∨ n = 10) := by decide +kernel
  have hb := key b.toNat b.toNat_lt
  rw [UInt8.ofNat_toNat] at hb
  rw [hb, decide_eq_true_iff]
  simp only [IsBlank, ← UInt8.toNat_inj]
  rfl

theorem count_append {ws rest : Bytes} (hws : Blank ws) (hrest : ∀ b ∈ rest.head?, ¬IsBlank b) :
    Blanks.all.count (ws ++ rest) = ws.length := by
  rw [Blanks.count, takeWhile_append]
  · exact fun b hb => (contains_all_iff b).2 (hws b hb)
  · intro b hb
    rw [Bool.eq_false_iff, ne_eq, contains_all_iff]
    exact hrest b hb

/-- A text is the blanks at its front and a rest that begins with none. -/
theorem exists_blank (text : Bytes) :
    ∃ ws rest, text = ws ++ rest ∧ Blank ws ∧ Blanks.all.count text = ws.length ∧ ∀ b ∈ rest.head?, ¬IsBlank b := by
  obtain ⟨ws, rest, rfl, hws, hrest⟩ := exists_takeWhile Blanks.all.contains text
  have hws' : Blank ws := fun b hb => (contains_all_iff b).1 (hws b hb)
  have hrest' : ∀ b ∈ rest.head?, ¬IsBlank b := by
    intro b hb hblank
    have := hrest b hb
    rw [(contains_all_iff b).2 hblank] at this
    cases this
  exact ⟨ws, rest, rfl, hws', count_append hws' hrest', hrest'⟩

/-! ## Numbers -/

theorem mark_iff {b : UInt8} : Byte.toLower b = Byte.letterE ↔ b = Byte.letterE ∨ b = 69 := by
  simp only [Byte.toLower]
  grind

/-- The mark of an exponent is a letter, and so no digit and no point. -/
theorem letter_of_mark {b : UInt8} (h : b = Byte.letterE ∨ b = 69) :
    Byte.isLetter b = true ∧ Byte.isDigit b = false ∧ b ≠ Byte.point := by
  rcases h with rfl | rfl <;> decide

theorem sign_cons {b : UInt8} (hplus : b ≠ Byte.plus) (hminus : b ≠ Byte.minus) (rest : Bytes) :
    Numeral.sign (b :: rest) = (false, 0) := by
  unfold Numeral.sign
  split
  · rename_i heq
    exact absurd (List.cons.inj heq).1 hplus
  · rename_i heq
    exact absurd (List.cons.inj heq).1 hminus
  · rfl

theorem not_sign {b : UInt8} (h : Byte.isDigit b = true ∨ b = Byte.point) : b ≠ Byte.plus ∧ b ≠ Byte.minus := by
  constructor
  · rintro rfl
    exact absurd h (by decide)
  · rintro rfl
    exact absurd h (by decide)

/-- A sign takes one byte, and digits have none. -/
theorem sign_append {sign digits rest : Bytes} (hsign : sign = [] ∨ sign = [Byte.plus] ∨ sign = [Byte.minus])
    (hdigits : Digits digits) (hne : digits ≠ []) : (Numeral.sign (sign ++ digits ++ rest)).2 = sign.length := by
  rcases hsign with rfl | rfl | rfl
  · obtain ⟨d, ds, rfl⟩ := List.exists_cons_of_ne_nil hne
    obtain ⟨hplus, hminus⟩ := not_sign (.inl (hdigits d List.mem_cons_self))
    rw [List.nil_append, List.cons_append, sign_cons hplus hminus, List.length_nil]
  · rfl
  · rfl

theorem exists_sign (text : Bytes) :
    ∃ sign rest, text = sign ++ rest ∧ (Numeral.sign text).2 = sign.length ∧
      (sign = [] ∨ sign = [Byte.plus] ∨ sign = [Byte.minus]) := by
  unfold Numeral.sign
  split
  · exact ⟨[Byte.plus], _, rfl, rfl, .inr (.inl rfl)⟩
  · exact ⟨[Byte.minus], _, rfl, rfl, .inr (.inr rfl)⟩
  · exact ⟨[], _, rfl, rfl, .inl rfl⟩

theorem exponentLength_append {e rest : Bytes} (he : Exponent e) (hrest : Delimited rest) :
    Parser.exponentLength (e ++ rest) = e.length := by
  cases he with
  | absent =>
    cases rest with
    | nil => rfl
    | cons b rest =>
      have hb : Byte.toLower b ≠ Byte.letterE := by
        intro h
        have hletter := (letter_of_mark (mark_iff.1 h)).1
        rw [(hrest b rfl).1] at hletter
        cases hletter
      rw [List.nil_append, Parser.exponentLength, if_neg hb]
      rfl
  | @present mark sign digits hmark hsign hdigits hne =>
    have hrun : (digits ++ rest).takeWhile Byte.isDigit = digits :=
      takeWhile_append hdigits fun b hb => (hrest b hb).2.1
    rw [List.cons_append, Parser.exponentLength, if_pos (mark_iff.2 hmark), sign_append hsign hdigits hne]
    simp only [List.append_assoc, List.drop_left, hrun, if_neg hne, List.length_cons, List.length_append]
    omega

theorem exists_exponent (text : Bytes) :
    ∃ e rest, text = e ++ rest ∧ Parser.exponentLength text = e.length ∧ Exponent e := by
  cases text with
  | nil => exact ⟨[], [], rfl, rfl, .absent⟩
  | cons mark rest =>
    rw [Parser.exponentLength]
    split
    · rename_i hmark
      obtain ⟨sign, rest, rfl, hlength, hsign⟩ := exists_sign rest
      obtain ⟨digits, rest, rfl, hdigits, hrest⟩ := exists_takeWhile Byte.isDigit rest
      simp only [hlength, List.drop_left, takeWhile_append hdigits hrest]
      split
      · exact ⟨[], _, rfl, rfl, .absent⟩
      · rename_i hne
        refine ⟨mark :: (sign ++ digits), rest, by simp, ?_, .present (mark_iff.1 hmark) hsign hdigits hne⟩
        simp only [List.length_cons, List.length_append]
        omega
    · exact ⟨[], _, rfl, rfl, .absent⟩

/-- Neither an exponent nor what cannot go on with a number goes on with the digits or the point of one. -/
theorem not_digit_of_exponent {e rest : Bytes} (he : Exponent e) (hrest : Delimited rest) :
    ∀ b ∈ (e ++ rest).head?, Byte.isDigit b = false ∧ b ≠ Byte.point := by
  cases he with
  | absent => exact fun b hb => ⟨(hrest b hb).2.1, (hrest b hb).2.2.1⟩
  | present hmark =>
    rintro b ⟨⟩
    exact (letter_of_mark hmark).2

theorem numberLength_whole {w tail : Bytes} (hw : Digits w)
    (htail : ∀ b ∈ tail.head?, Byte.isDigit b = false ∧ b ≠ Byte.point) :
    Parser.numberLength (w ++ tail) = if w = [] then 0 else w.length + Parser.exponentLength tail := by
  have hrun : (w ++ tail).takeWhile Byte.isDigit = w := takeWhile_append hw fun b hb => (htail b hb).1
  simp only [Parser.numberLength, hrun, List.drop_left]
  split
  · exact absurd rfl (htail Byte.point rfl).2
  · rfl

theorem numberLength_point {w f tail : Bytes} (hw : Digits w) (hf : Digits f)
    (htail : ∀ b ∈ tail.head?, Byte.isDigit b = false) :
    Parser.numberLength (w ++ Byte.point :: (f ++ tail)) =
      if w = [] ∧ f = [] then 0 else w.length + 1 + f.length + Parser.exponentLength tail := by
  have hrun : (w ++ Byte.point :: (f ++ tail)).takeWhile Byte.isDigit = w := by
    apply takeWhile_append hw
    rintro b ⟨⟩
    rfl
  have hfraction : (f ++ tail).takeWhile Byte.isDigit = f := takeWhile_append hf htail
  simp only [Parser.numberLength, hrun, List.drop_left]
  split
  · rename_i heq
    obtain rfl := (List.cons.inj heq).2
    rw [hfraction, List.drop_left]
  · rename_i hno
    exact absurd rfl (hno _)

/-- Digits and point are scanned as a whole, if nothing goes on with them. -/
theorem numberLength_mantissa {m tail : Bytes} (hm : Mantissa m)
    (htail : ∀ b ∈ tail.head?, Byte.isDigit b = false ∧ b ≠ Byte.point) :
    Parser.numberLength (m ++ tail) = m.length + Parser.exponentLength tail := by
  cases hm with
  | whole hd hne => rw [numberLength_whole hd htail, if_neg hne]
  | point hd hne hf =>
    rw [List.append_assoc, List.cons_append, numberLength_point hd hf fun b hb => (htail b hb).1,
      if_neg fun h => hne h.1, List.length_append, List.length_cons]
    omega
  | fraction hf hne =>
    have hnone : Digits [] := fun b hb => absurd hb List.not_mem_nil
    have hlength := numberLength_point hnone hf fun b hb => (htail b hb).1
    rw [if_neg fun h => hne h.2, List.nil_append] at hlength
    rw [List.cons_append, hlength, List.length_nil, List.length_cons]
    omega

/-- A number is scanned as a whole, if nothing goes on with it. -/
theorem numberLength_append {w rest : Bytes} (hw : Number w) (hrest : Delimited rest) :
    Parser.numberLength (w ++ rest) = w.length := by
  obtain ⟨hm, he⟩ := hw
  rw [List.append_assoc, numberLength_mantissa hm (not_digit_of_exponent he hrest), exponentLength_append he hrest,
    List.length_append]

/-- What is scanned as a number is one. -/
theorem exists_number {text : Bytes} (h : Parser.numberLength text ≠ 0) :
    ∃ w rest, text = w ++ rest ∧ Parser.numberLength text = w.length ∧ Number w := by
  obtain ⟨whole, tail, rfl, hwhole, htail⟩ := exists_takeWhile Byte.isDigit text
  by_cases hpoint : ∃ rest, tail = Byte.point :: rest
  · obtain ⟨rest, rfl⟩ := hpoint
    obtain ⟨fraction, rest, rfl, hfraction, hrest⟩ := exists_takeWhile Byte.isDigit rest
    have hlength := numberLength_point hwhole hfraction hrest
    have hne : ¬(whole = [] ∧ fraction = []) := fun hnone => h (hlength.trans (if_pos hnone))
    obtain ⟨e, rest, rfl, htaken, he⟩ := exists_exponent rest
    have hm : Mantissa (whole ++ Byte.point :: fraction) := by
      by_cases hnone : whole = []
      · subst hnone
        exact .fraction hfraction fun h => hne ⟨rfl, h⟩
      · exact .point hwhole hnone hfraction
    refine ⟨whole ++ Byte.point :: fraction ++ e, rest, by simp, ?_, .mk hm he⟩
    rw [hlength, if_neg hne, htaken]
    simp only [List.length_append, List.length_cons]
    omega
  · have htail' : ∀ b ∈ tail.head?, Byte.isDigit b = false ∧ b ≠ Byte.point := by
      intro b hb
      refine ⟨htail b hb, ?_⟩
      rintro rfl
      exact hpoint (List.head?_eq_some_iff.1 hb)
    have hlength := numberLength_whole hwhole htail'
    have hne : whole ≠ [] := fun hnone => h (hlength.trans (if_pos hnone))
    obtain ⟨e, rest, rfl, htaken, he⟩ := exists_exponent tail
    refine ⟨whole ++ e, rest, by simp, ?_, .mk (.whole hwhole hne) he⟩
    rw [hlength, if_neg hne, htaken, List.length_append]

/-! ## Numbers are numerals -/

/-- The bytes of a number. -/
theorem mem_number {w : Bytes} (hw : Number w) {b : UInt8} (hb : b ∈ w) :
    Byte.isDigit b = true ∨ b = Byte.point ∨ b = Byte.letterE ∨ b = 69 ∨ b = Byte.plus ∨ b = Byte.minus := by
  obtain ⟨hm, he⟩ := hw
  rcases List.mem_append.1 hb with hb | hb
  · cases hm with
    | whole hd => exact .inl (hd b hb)
    | point hd _ hf =>
      rcases List.mem_append.1 hb with hb | hb
      · exact .inl (hd b hb)
      · rcases List.mem_cons.1 hb with rfl | hb
        · exact .inr (.inl rfl)
        · exact .inl (hf b hb)
    | fraction hf =>
      rcases List.mem_cons.1 hb with rfl | hb
      · exact .inr (.inl rfl)
      · exact .inl (hf b hb)
  · cases he with
    | absent => cases hb
    | present hmark hsign hdigits =>
      rcases List.mem_cons.1 hb with rfl | hb
      · rcases hmark with rfl | rfl <;> simp
      · rcases List.mem_append.1 hb with hb | hb
        · rcases hsign with rfl | rfl | rfl <;> simp_all
        · exact .inl (hdigits b hb)

/-- A number begins with a digit, or with a point before one. -/
theorem start_of_number {w : Bytes} (hw : Number w) :
    ∃ b rest, w = b :: rest ∧ (Byte.isDigit b ∨ b = Byte.point ∧ ∃ c, rest.head? = some c ∧ Byte.isDigit c) := by
  obtain ⟨hm, he⟩ := hw
  cases hm with
  | whole hd hne =>
    obtain ⟨b, rest, rfl⟩ := List.exists_cons_of_ne_nil hne
    exact ⟨b, _, rfl, .inl (hd b List.mem_cons_self)⟩
  | point hd hne =>
    obtain ⟨b, rest, rfl⟩ := List.exists_cons_of_ne_nil hne
    exact ⟨b, _, rfl, .inl (hd b List.mem_cons_self)⟩
  | fraction hf hne =>
    obtain ⟨c, rest, rfl⟩ := List.exists_cons_of_ne_nil hne
    exact ⟨_, _, rfl, .inr ⟨rfl, c, rfl, hf c List.mem_cons_self⟩⟩

theorem head_of_number {w : Bytes} (hw : Number w) :
    ∃ b rest, w = b :: rest ∧ (Byte.isDigit b = true ∨ b = Byte.point) := by
  obtain ⟨b, rest, hsplit, hb⟩ := start_of_number hw
  exact ⟨b, rest, hsplit, hb.imp id And.left⟩

/-- The sign in front of a number. -/
def signOf (negative : Bool) : Bytes := if negative then [Byte.minus] else []

theorem sign_number {w : Bytes} (hw : Number w) (negative : Bool) :
    Numeral.sign (signOf negative ++ w) = (negative, (signOf negative).length) := by
  cases negative with
  | true => rfl
  | false =>
    obtain ⟨b, rest, rfl, hb⟩ := head_of_number hw
    obtain ⟨hplus, hminus⟩ := not_sign hb
    exact sign_cons hplus hminus rest

theorem verbal?_number {w : Bytes} (hw : Number w) (negative : Bool) :
    Numeral.verbal? (signOf negative ++ w) = none := by
  have hsign := sign_number hw negative
  obtain ⟨b, rest, rfl, hb⟩ := head_of_number hw
  have hcommon : ∀ (c : UInt8) (word : Bytes), 97 ≤ c → Numeral.commonLength (b :: rest) (c :: word) = 0 := by
    intro c word hc
    refine if_neg ?_
    simp only [Byte.isDigit, Byte.toLower] at hb ⊢
    grind
  have hinfinity : Numeral.commonLength (b :: rest) (bytes "infinity") = 0 := hcommon 105 _ (by decide)
  have hnan : Numeral.commonLength (b :: rest) (bytes "nan") = 0 := hcommon 110 _ (by decide)
  simp only [Numeral.verbal?, hsign, List.drop_left, hinfinity]
  cases negative with
  | true => simp [signOf]
  | false => simp [signOf, hnan]

theorem isHex_number {w : Bytes} (hw : Number w) : Numeral.isHex w = false := by
  unfold Numeral.isHex
  split
  · rename_i mark _ _
    rcases mem_number hw (b := mark) (by simp) with h | rfl | rfl | rfl | rfl | rfl
    · simp only [Byte.isDigit, Byte.toLower] at h ⊢
      grind
    all_goals decide
  · rfl

theorem digitRun_append {w tail : Bytes} (hw : Digits w)
    (htail : ∀ b ∈ tail.head?, Byte.isDigit b = false ∧ b ≠ Byte.underscore) :
    Numeral.digitRun false (w ++ tail) = w := by
  apply takeWhile_append
  · intro b hb
    simp [Numeral.isDigitOf, hw b hb]
  · intro b hb
    simp [Numeral.isDigitOf, htail b hb]

theorem countDigits_digits {w : Bytes} (hw : Digits w) : Numeral.countDigits w = w.length := by
  rw [Numeral.countDigits, List.countP_eq_length]
  intro b hb
  have hd := hw b hb
  simp only [Byte.isDigit] at hd
  grind

/-! ### Parts -/

/-- A number taken apart. -/
structure Parts where
  whole : Bytes
  fraction : Bytes
  /-- Whether the exponent has a minus. -/
  negative : Bool
  power : Bytes

/-- The digits before and after the point. -/
inductive MantissaOf (p : Parts) : Bytes → Prop
  | whole (hw : Digits p.whole) (hne : p.whole ≠ []) (hf : p.fraction = []) : MantissaOf p p.whole
  | point (hw : Digits p.whole) (hf : Digits p.fraction) (hne : p.whole ≠ [] ∨ p.fraction ≠ []) :
      MantissaOf p (p.whole ++ Byte.point :: p.fraction)

inductive ExponentOf (p : Parts) : Bytes → Prop
  | absent (hs : p.negative = false) (hp : p.power = []) : ExponentOf p []
  | present {mark : UInt8} {sign : Bytes} (hmark : mark = Byte.letterE ∨ mark = 69)
      (hsign : sign = signOf p.negative ∨ p.negative = false ∧ sign = [Byte.plus]) (hp : Digits p.power)
      (hne : p.power ≠ []) : ExponentOf p (mark :: (sign ++ p.power))

/-- The number with the given parts, spelled out. -/
inductive Spelled (p : Parts) : Bytes → Prop
  | mk {m e : Bytes} (hm : MantissaOf p m) (he : ExponentOf p e) : Spelled p (m ++ e)

theorem Spelled.number {p : Parts} {w : Bytes} (h : Spelled p w) : Number w := by
  obtain ⟨hm, he⟩ := h
  refine .mk ?_ ?_
  · cases hm with
    | whole hw hne => exact .whole hw hne
    | point hw hf hne =>
      by_cases hnil : p.whole = []
      · rw [hnil]
        exact .fraction hf (hne.resolve_left fun h => h hnil)
      · exact .point hw hnil hf
  · cases he with
    | absent => exact .absent
    | present hmark hsign hp hne =>
      refine .present hmark ?_ hp hne
      rcases hsign with rfl | ⟨-, rfl⟩
      · cases p.negative <;> simp [signOf]
      · exact .inr (.inl rfl)

theorem exists_spelled {w : Bytes} (hw : Number w) : ∃ p, Spelled p w := by
  obtain @⟨m, e, hm, he⟩ := hw
  have hexponent : ∃ negative power, ∀ whole fraction, ExponentOf ⟨whole, fraction, negative, power⟩ e := by
    cases he with
    | absent => exact ⟨false, [], fun _ _ => .absent rfl rfl⟩
    | @present mark sign digits hmark hsign hdigits hne =>
      rcases hsign with rfl | rfl | rfl
      · exact ⟨false, digits, fun _ _ => .present hmark (.inl rfl) hdigits hne⟩
      · exact ⟨false, digits, fun _ _ => .present hmark (.inr ⟨rfl, rfl⟩) hdigits hne⟩
      · exact ⟨true, digits, fun _ _ => .present hmark (.inl rfl) hdigits hne⟩
  obtain ⟨negative, power, he'⟩ := hexponent
  cases hm with
  | whole hd hne => exact ⟨_, .mk (.whole hd hne rfl) (he' m [])⟩
  | @point w f hd hne hf => exact ⟨⟨w, f, negative, power⟩, .mk (.point hd hf (.inl hne)) (he' w f)⟩
  | @fraction f hf hne => exact ⟨⟨[], f, negative, power⟩, .mk (.point nofun hf (.inr hne)) (he' [] f)⟩

theorem Spelled.digits {p : Parts} {w : Bytes} (h : Spelled p w) :
    Digits p.whole ∧ Digits p.fraction ∧ Digits p.power ∧ (p.whole ≠ [] ∨ p.fraction ≠ []) := by
  obtain ⟨hm, he⟩ := h
  have hpower : Digits p.power := by
    cases he with
    | absent _ hp => rw [hp]; exact nofun
    | present _ _ hp => exact hp
  cases hm with
  | whole hw hne hf => exact ⟨hw, by rw [hf]; exact nofun, hpower, .inl hne⟩
  | point hw hf hne => exact ⟨hw, hf, hpower, hne⟩

/-- What follows the digits of a mantissa. -/
theorem ExponentOf.head {p : Parts} {e : Bytes} (he : ExponentOf p e) :
    ∀ b ∈ e.head?, Byte.isDigit b = false ∧ b ≠ Byte.point ∧ b ≠ Byte.underscore := by
  cases he with
  | absent => simp
  | present hmark =>
    rintro b ⟨⟩
    rcases hmark with rfl | rfl <;> decide

theorem digits_mantissaOf {p : Parts} {m e : Bytes} (hm : MantissaOf p m) (he : ExponentOf p e) :
    Numeral.digits false (m ++ e) = ⟨p.whole, p.fraction, m.length⟩ := by
  have htail : ∀ b ∈ e.head?, Byte.isDigit b = false ∧ b ≠ Byte.underscore :=
    fun b hb => ⟨(he.head b hb).1, (he.head b hb).2.2⟩
  cases hm with
  | whole hw _ hf =>
    simp only [Numeral.digits, digitRun_append hw htail, List.drop_left, hf]
    split
    · exact absurd rfl (he.head Byte.point rfl).2.1
    · rfl
  | point hw hf =>
    have hrun : Numeral.digitRun false (p.whole ++ Byte.point :: (p.fraction ++ e)) = p.whole := by
      apply digitRun_append hw
      rintro b ⟨⟩
      decide
    rw [List.append_assoc, List.cons_append]
    simp only [Numeral.digits, hrun, List.drop_left]
    split
    · rename_i heq
      obtain rfl := (List.cons.inj heq).2
      rw [digitRun_append hf htail]
      simp only [List.length_append, List.length_cons, Numeral.Digits.mk.injEq, true_and]
      omega
    · rename_i hno
      exact absurd rfl (hno _)

/-- The exponent as it is read, which is not what is written if it is very large. -/
def Parts.readExponent (p : Parts) : Int :=
  if p.negative then -(Numeral.exponentValue p.power : Int) else Numeral.exponentValue p.power

theorem exponent?_exponentOf {p : Parts} {e : Bytes} (he : ExponentOf p e) :
    Numeral.exponent? Byte.letterE e = some (p.readExponent, e.length) := by
  cases he with
  | absent hs hp => simp [Numeral.exponent?, Parts.readExponent, hs, hp, Numeral.exponentValue]
  | @present mark sign hmark hsign hdigits hne =>
    have hrun : Numeral.digitRun false (p.power ++ []) = p.power := digitRun_append hdigits (by simp)
    rw [List.append_nil] at hrun
    obtain ⟨d, ds, hpower⟩ := List.exists_cons_of_ne_nil hne
    have hd : Byte.isDigit d = true := hdigits d (by rw [hpower]; exact List.mem_cons_self)
    have hsigned : Numeral.sign (sign ++ p.power) = (p.negative, sign.length) := by
      rcases hsign with rfl | ⟨hs, rfl⟩
      · cases hs : p.negative with
        | true => rfl
        | false =>
          obtain ⟨hplus, hminus⟩ := not_sign (.inl hd)
          rw [hpower]
          exact sign_cons hplus hminus ds
      · rw [hs]
        rfl
    simp only [Numeral.exponent?, if_pos (mark_iff.2 hmark), hsigned, List.drop_left, hrun]
    simp only [hpower, List.head?_cons, Option.map_some, hd, Option.getD_some, if_true, Parts.readExponent,
      List.length_cons, List.length_append]
    simp only [Option.some.injEq, Prod.mk.injEq, true_and]
    omega

/-- The digits before the point that are not counted when the number is read. -/
def Parts.uncounted (p : Parts) : Nat := Numeral.uncounted ⟨p.whole, p.fraction, 0⟩ p.readExponent

/-- What a number stands for when it is read. -/
def Parts.form (p : Parts) (negative : Bool) : Numeral.Form :=
  .scaled negative 10 (Numeral.valueOf 10 (p.whole ++ p.fraction)) (p.readExponent - p.fraction.length - p.uncounted)

/-- **Every number is read as a whole**, with a sign or without. -/
theorem form?_spelled {p : Parts} {w : Bytes} (h : Spelled p w) (negative : Bool) :
    Numeral.form? (signOf negative ++ w) = some (p.form negative) := by
  have hverbal := verbal?_number h.number negative
  have hsign := sign_number h.number negative
  have hhex := isHex_number h.number
  have hunderscore : w.contains Byte.underscore = false := by
    rw [Bool.eq_false_iff, ne_eq, List.contains_iff_mem]
    exact fun hmem => absurd (mem_number h.number hmem) (by decide)
  obtain ⟨hwhole, hfraction, -, hsome⟩ := h.digits
  obtain @⟨m, e, hm, he⟩ := h
  have hcount : ¬p.whole.length + p.fraction.length = 0 := by
    rcases hsome with h | h
    · have := List.length_pos_iff.2 h
      omega
    · have := List.length_pos_iff.2 h
      omega
  have htake : (m ++ e).take (m.length + e.length) = m ++ e := by rw [← List.length_append, List.take_length]
  have hpositional : Numeral.positional? (signOf negative ++ (m ++ e)) =
      some ⟨p.form negative, (signOf negative ++ (m ++ e)).length⟩ := by
    simp only [Numeral.positional?, hsign, List.drop_left, hhex, List.drop_zero, digits_mantissaOf hm he,
      countDigits_digits hwhole, countDigits_digits hfraction, if_neg hcount, Bool.false_eq_true, if_false, Nat.zero_add,
      exponent?_exponentOf he, false_and, Option.bind_eq_bind, Option.bind_some, htake, hunderscore, List.length_append]
    rfl
  simp [Numeral.form?, Numeral.front?, hverbal, hpositional]

theorem form?_number {w : Bytes} (hw : Number w) : (Numeral.form? w).isSome = true := by
  obtain ⟨p, hp⟩ := exists_spelled hw
  have hform : Numeral.form? w = some (p.form false) := form?_spelled hp false
  rw [hform, Option.isSome_some]

/-! ## Names -/

/-- The encoding of a character beyond ASCII begins with a byte beyond ASCII. -/
theorem lead_of_char {c : Char} (hc : 128 ≤ c.toNat) :
    ∃ b tail, String.utf8EncodeChar c = b :: tail ∧ 128 ≤ b.toNat := by
  have hc' : 128 ≤ c.val.toNat := hc
  unfold String.utf8EncodeChar
  simp only
  split
  · omega
  · split
    · refine ⟨_, _, rfl, ?_⟩
      rw [Utf8.toNat_ofNat (by omega)]
      omega
    · split
      · refine ⟨_, _, rfl, ?_⟩
        rw [Utf8.toNat_ofNat (by omega)]
        omega
      · refine ⟨_, _, rfl, ?_⟩
        rw [Utf8.toNat_ofNat (by omega)]
        omega

theorem ascii_encode {c : Char} (hc : c.toNat < 128) : String.utf8EncodeChar c = [UInt8.ofNat c.toNat] := by
  have hc' : c.val.toNat ≤ 127 := Nat.le_of_lt_succ hc
  rw [String.utf8EncodeChar, if_pos hc']
  rfl

theorem not_ascii {b : UInt8} (hb : 128 ≤ b.toNat) :
    (Byte.isLetter b || Byte.isDigit b) = false ∧ ¬b < 128 := by
  have hb' : 128 ≤ b := UInt8.le_iff_toNat_le.2 hb
  simp only [Byte.isLetter, Byte.isDigit]
  grind

/-- What follows the first letter of a name is scanned as a whole, if nothing goes on with it. -/
theorem wordTail_append {w rest : Bytes} (hw : NameTail w) (hrest : Delimited rest) :
    Parser.wordTail (w ++ rest) = (w.length, true) := by
  induction hw with
  | nil =>
    cases rest with
    | nil => rw [List.nil_append, Parser.wordTail]; rfl
    | cons b rest =>
      obtain ⟨hletter, hdigit, -, hascii⟩ := hrest b rfl
      rw [List.nil_append, Parser.wordTail, hletter, hdigit, if_neg (by decide), if_pos hascii]
      rfl
  | @byte b w hb hw ih =>
    have hb' : (Byte.isLetter b || Byte.isDigit b) = true := by simpa using hb
    rw [List.cons_append, Parser.wordTail, if_pos hb', ih]
    rfl
  | @char c w hc hne hw ih =>
    have hfirst := Utf8.first?_encode c (w ++ rest)
    obtain ⟨b, tail, hencode, hb⟩ := lead_of_char hc
    obtain ⟨hclass, hascii⟩ := not_ascii hb
    rw [hencode] at hfirst ⊢
    rw [List.append_assoc, List.cons_append, Parser.wordTail, hclass, if_neg (by decide), if_neg hascii,
      ← List.cons_append, hfirst]
    simp only [if_neg hne, List.length_cons, Nat.add_sub_cancel, List.drop_left, ih, List.length_append,
      Prod.mk.injEq, and_true]
    omega

/-- What is scanned as the tail of a name is one, also if it ends badly. -/
theorem exists_nameTail (text : Bytes) {n : Nat} {ok : Bool} (h : Parser.wordTail text = (n, ok)) :
    ∃ w rest, text = w ++ rest ∧ n = w.length ∧ NameTail w := by
  fun_induction Parser.wordTail text generalizing n ok with
  | case1 =>
    cases h
    exact ⟨[], [], rfl, rfl, .nil⟩
  | case2 b rest hb m _ hrec ih =>
    cases h
    obtain ⟨w, rest, rfl, rfl, hw⟩ := ih hrec
    exact ⟨b :: w, rest, rfl, rfl, .byte (by simpa using hb) hw⟩
  | case3 b rest hb hascii =>
    cases h
    exact ⟨[], b :: rest, rfl, rfl, .nil⟩
  | case4 b rest | case5 b rest =>
    cases h
    exact ⟨[], b :: rest, rfl, rfl, .nil⟩
  | case6 b rest hb hascii c width hfirst hne m _ hrec ih =>
    cases h
    obtain ⟨tail, htext, rfl⟩ := Utf8.eq_encode_of_first? hfirst
    have hc : 128 ≤ c.toNat := by
      refine Nat.le_of_not_lt fun hlow => hascii ?_
      rw [ascii_encode hlow] at htext
      rw [(List.cons.inj htext).1, UInt8.lt_iff_toNat_lt, Utf8.toNat_ofNat (by omega)]
      exact hlow
    obtain ⟨b', tail', hencode, -⟩ := lead_of_char hc
    have hdrop : rest.drop ((String.utf8EncodeChar c).length - 1) = tail := by
      rw [hencode] at htext ⊢
      rw [List.cons_append] at htext
      rw [(List.cons.inj htext).2, List.length_cons, Nat.add_sub_cancel, List.drop_left]
    obtain ⟨w, rest, hw, rfl, htail⟩ := ih hrec
    rw [hdrop] at hw
    refine ⟨String.utf8EncodeChar c ++ w, rest, by rw [htext, hw, List.append_assoc], ?_, .char hc hne htail⟩
    rw [List.length_append, Nat.add_comm]

end Lexeme

end ComplexFormula
