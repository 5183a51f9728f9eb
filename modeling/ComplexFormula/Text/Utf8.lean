import ComplexFormula.Text.Bytes

/-!
# Characters in byte texts

`first?` reads the character at the front of a text, if the front is the well-formed UTF-8 encoding of one: shortest
form, no surrogates, nothing above U+10FFFF. `pieces` cuts a whole text into characters and bytes that belong to
none.
-/

namespace ComplexFormula.Utf8

/-- The six bits that a continuation byte carries, and what follows it. -/
def continuation? : Bytes → Option (Nat × Bytes)
  | [] => none
  | b :: rest => if 128 ≤ b.toNat ∧ b.toNat < 192 then some (b.toNat - 128, rest) else none

/-- The character with a given code, which must be at least `least`. -/
def scalar? (least code : Nat) : Option Char :=
  if least ≤ code ∧ code.isValidChar then some (Char.ofNat code) else none

/-- The character at the front of a text and the number of bytes it takes. -/
def first? : Bytes → Option (Char × Nat)
  | [] => none
  | b :: rest =>
    let lead := b.toNat
    if lead < 128 then some (Char.ofNat lead, 1)
    else if lead < 192 then none
    else if lead < 224 then do
      let (x, _) ← continuation? rest
      let c ← scalar? 0x80 ((lead - 192) * 64 + x)
      some (c, 2)
    else if lead < 240 then do
      let (x, rest) ← continuation? rest
      let (y, _) ← continuation? rest
      let c ← scalar? 0x800 (((lead - 224) * 64 + x) * 64 + y)
      some (c, 3)
    else if lead < 248 then do
      let (x, rest) ← continuation? rest
      let (y, rest) ← continuation? rest
      let (z, _) ← continuation? rest
      let c ← scalar? 0x10000 ((((lead - 240) * 64 + x) * 64 + y) * 64 + z)
      some (c, 4)
    else none

/-- A part of a text: a character, or a byte that is not part of one. -/
inductive Piece where
  | char (c : Char)
  | stray (b : UInt8)

def pieces : Bytes → List Piece
  | [] => []
  | b :: rest =>
    match first? (b :: rest) with
    | some (c, width) => .char c :: pieces (rest.drop (width - 1))
    | none => .stray b :: pieces rest
termination_by text => text.length
decreasing_by all_goals (simp only [List.length_drop, List.length_cons]; omega)

end ComplexFormula.Utf8
