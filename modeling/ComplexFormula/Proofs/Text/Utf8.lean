import ComplexFormula.Text.Utf8

/-!
# Reading characters inverts encoding them

`Utf8.first?` finds a character at the front of every text that begins with the UTF-8 encoding of that character
(`first?_encode`), and of no other text (`eq_encode_of_first?`).
-/

namespace ComplexFormula.Utf8

theorem continuation?_eq_some_iff {text rest : Bytes} {x : Nat} :
    continuation? text = some (x, rest) ↔ x < 64 ∧ text = UInt8.ofNat (x + 128) :: rest := by
  cases text with
  | nil => simp [continuation?]
  | cons b tail =>
    constructor
    · intro h
      dsimp only [continuation?] at h
      split at h
      · rename_i hb
        obtain ⟨rfl, rfl⟩ := Prod.mk.inj (Option.some.inj h)
        have hb' : UInt8.ofNat (b.toNat - 128 + 128) = b := by
          rw [Nat.sub_add_cancel hb.1]
          exact UInt8.ofNat_toNat
        exact ⟨by omega, by rw [hb']⟩
      · cases h
    · rintro ⟨hx, heq⟩
      obtain ⟨rfl, rfl⟩ := List.cons.inj heq
      have hval : (UInt8.ofNat (x + 128)).toNat = x + 128 := by
        rw [UInt8.toNat_ofNat']
        omega
      rw [continuation?, hval, if_pos ⟨by omega, by omega⟩, Nat.add_sub_cancel]

theorem scalar?_eq_some_iff {least code : Nat} {c : Char} :
    scalar? least code = some c ↔ least ≤ code ∧ c.toNat = code := by
  unfold scalar?
  constructor
  · intro h
    split at h
    · rename_i hcode
      cases h
      refine ⟨hcode.1, ?_⟩
      rw [Char.ofNat, dif_pos hcode.2]
      rfl
    · cases h
  · rintro ⟨hle, rfl⟩
    rw [if_pos ⟨hle, c.valid⟩, Char.ofNat_toNat]

/-! ## Leads

What a lead byte with a certain number of continuation bytes comes to. -/

theorem toNat_ofNat {n : Nat} (h : n < 256) : (UInt8.ofNat n).toNat = n := by
  rw [UInt8.toNat_ofNat']
  omega

theorem first?_one {a : Nat} (ha : a < 128) (rest : Bytes) :
    first? (UInt8.ofNat a :: rest) = some (Char.ofNat a, 1) := by
  rw [first?, toNat_ofNat (by omega), if_pos ha]

theorem first?_two {a x : Nat} (ha : a < 32) (hx : x < 64) (rest : Bytes) :
    first? (UInt8.ofNat (a + 192) :: UInt8.ofNat (x + 128) :: rest) = (scalar? 0x80 (a * 64 + x)).map (·, 2) := by
  have hcont := continuation?_eq_some_iff.2 ⟨hx, Eq.refl (UInt8.ofNat (x + 128) :: rest)⟩
  rw [first?, toNat_ofNat (by omega), if_neg (by omega), if_neg (by omega), if_pos (by omega), hcont,
    Nat.add_sub_cancel, Option.map_eq_bind]
  rfl

theorem first?_three {a x y : Nat} (ha : a < 16) (hx : x < 64) (hy : y < 64) (rest : Bytes) :
    first? (UInt8.ofNat (a + 224) :: UInt8.ofNat (x + 128) :: UInt8.ofNat (y + 128) :: rest) =
      (scalar? 0x800 ((a * 64 + x) * 64 + y)).map (·, 3) := by
  have hlast := continuation?_eq_some_iff.2 ⟨hy, Eq.refl (UInt8.ofNat (y + 128) :: rest)⟩
  have hcont := continuation?_eq_some_iff.2 ⟨hx, Eq.refl (UInt8.ofNat (x + 128) :: UInt8.ofNat (y + 128) :: rest)⟩
  rw [first?, toNat_ofNat (by omega), if_neg (by omega), if_neg (by omega), if_neg (by omega), if_pos (by omega), hcont,
    Nat.add_sub_cancel]
  simp only [Option.bind_eq_bind, Option.bind_some, hlast, Option.map_eq_bind]
  rfl

theorem first?_four {a x y z : Nat} (ha : a < 8) (hx : x < 64) (hy : y < 64) (hz : z < 64) (rest : Bytes) :
    first? (UInt8.ofNat (a + 240) :: UInt8.ofNat (x + 128) :: UInt8.ofNat (y + 128) :: UInt8.ofNat (z + 128) :: rest) =
      (scalar? 0x10000 (((a * 64 + x) * 64 + y) * 64 + z)).map (·, 4) := by
  have hlast := continuation?_eq_some_iff.2 ⟨hz, Eq.refl (UInt8.ofNat (z + 128) :: rest)⟩
  have hmid := continuation?_eq_some_iff.2 ⟨hy, Eq.refl (UInt8.ofNat (y + 128) :: UInt8.ofNat (z + 128) :: rest)⟩
  have hcont := continuation?_eq_some_iff.2
    ⟨hx, Eq.refl (UInt8.ofNat (x + 128) :: UInt8.ofNat (y + 128) :: UInt8.ofNat (z + 128) :: rest)⟩
  rw [first?, toNat_ofNat (by omega), if_neg (by omega), if_neg (by omega), if_neg (by omega), if_neg (by omega),
    if_pos (by omega), hcont, Nat.add_sub_cancel]
  simp only [Option.bind_eq_bind, Option.bind_some, hmid, hlast, Option.map_eq_bind]
  rfl

/-! ## Encodings -/

/-- A text that begins with an encoding begins with the character. -/
theorem first?_encode (c : Char) (rest : Bytes) :
    first? (String.utf8EncodeChar c ++ rest) = some (c, (String.utf8EncodeChar c).length) := by
  have hvalid := c.valid
  simp only [UInt32.isValidChar, Nat.isValidChar] at hvalid
  have hscalar : ∀ least code, least ≤ code → c.val.toNat = code → scalar? least code = some c :=
    fun least code hle hc => scalar?_eq_some_iff.2 ⟨hle, hc⟩
  unfold String.utf8EncodeChar
  generalize hv : c.val.toNat = v at hvalid hscalar
  dsimp only
  split
  · rw [List.singleton_append, first?_one (by omega), ← hv]
    exact congrArg (fun c => some (c, 1)) (Char.ofNat_toNat c)
  · split
    · refine (first?_two (by omega) (by omega) rest).trans ?_
      rw [hscalar _ _ (by omega) (by omega)]
      rfl
    · split
      · refine (first?_three (by omega) (by omega) (by omega) rest).trans ?_
        rw [hscalar _ _ (by omega) (by omega)]
        rfl
      · refine (first?_four (by omega) (by omega) (by omega) (by omega) rest).trans ?_
        rw [hscalar _ _ (by omega) (by omega)]
        rfl

/-- A text that begins with a character begins with its encoding. -/
theorem eq_encode_of_first? {text : Bytes} {c : Char} {width : Nat} (h : first? text = some (c, width)) :
    ∃ rest, text = String.utf8EncodeChar c ++ rest ∧ width = (String.utf8EncodeChar c).length := by
  cases text with
  | nil => cases h
  | cons b rest =>
    have hlead : ∀ n, n = b.toNat → UInt8.ofNat n = b := by
      rintro _ rfl
      exact UInt8.ofNat_toNat
    have hb := b.toNat_lt
    dsimp only [first?] at h
    unfold String.utf8EncodeChar
    split at h
    · rename_i hone
      obtain ⟨rfl, rfl⟩ := Prod.mk.inj (Option.some.inj h)
      have hc : (Char.ofNat b.toNat).val.toNat = b.toNat := by
        rw [Char.ofNat, dif_pos (Or.inl (by omega))]
        rfl
      rw [hc, if_pos (by omega), hlead _ rfl]
      exact ⟨rest, rfl, rfl⟩
    split at h
    · cases h
    split at h
    · simp only [Option.bind_eq_bind, Option.bind_eq_some_iff, Prod.exists] at h
      obtain ⟨x, tail, hx, c', hc, hpair⟩ := h
      obtain ⟨rfl, rfl⟩ := Prod.mk.inj (Option.some.inj hpair)
      obtain ⟨hx, rfl⟩ := continuation?_eq_some_iff.1 hx
      obtain ⟨hle, hc : c'.val.toNat = _⟩ := scalar?_eq_some_iff.1 hc
      refine ⟨tail, ?_⟩
      rw [if_neg (by omega), if_pos (by omega), hlead (c'.val.toNat / 64 % 32 + 192) (by omega),
        show c'.val.toNat % 64 = x by omega]
      exact ⟨rfl, rfl⟩
    split at h
    · simp only [Option.bind_eq_bind, Option.bind_eq_some_iff, Prod.exists] at h
      obtain ⟨x, _, hx, y, tail, hy, c', hc, hpair⟩ := h
      obtain ⟨rfl, rfl⟩ := Prod.mk.inj (Option.some.inj hpair)
      obtain ⟨hx, rfl⟩ := continuation?_eq_some_iff.1 hx
      obtain ⟨hy, rfl⟩ := continuation?_eq_some_iff.1 hy
      obtain ⟨hle, hc : c'.val.toNat = _⟩ := scalar?_eq_some_iff.1 hc
      refine ⟨tail, ?_⟩
      rw [if_neg (by omega), if_neg (by omega), if_pos (by omega), hlead (c'.val.toNat / 4096 % 16 + 224) (by omega),
        show c'.val.toNat / 64 % 64 = x by omega, show c'.val.toNat % 64 = y by omega]
      exact ⟨rfl, rfl⟩
    split at h
    · simp only [Option.bind_eq_bind, Option.bind_eq_some_iff, Prod.exists] at h
      obtain ⟨x, _, hx, y, _, hy, z, tail, hz, c', hc, hpair⟩ := h
      obtain ⟨rfl, rfl⟩ := Prod.mk.inj (Option.some.inj hpair)
      obtain ⟨hx, rfl⟩ := continuation?_eq_some_iff.1 hx
      obtain ⟨hy, rfl⟩ := continuation?_eq_some_iff.1 hy
      obtain ⟨hz, rfl⟩ := continuation?_eq_some_iff.1 hz
      obtain ⟨hle, hc : c'.val.toNat = _⟩ := scalar?_eq_some_iff.1 hc
      refine ⟨tail, ?_⟩
      rw [if_neg (by omega), if_neg (by omega), if_neg (by omega), hlead (c'.val.toNat / 262144 % 8 + 240) (by omega),
        show c'.val.toNat / 4096 % 64 = x by omega, show c'.val.toNat / 64 % 64 = y by omega,
        show c'.val.toNat % 64 = z by omega]
      exact ⟨rfl, rfl⟩
    · cases h

end ComplexFormula.Utf8
