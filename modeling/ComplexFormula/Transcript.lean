import ComplexFormula.Grammar.Builder

/-!
# Transcripts

A builder that writes down every call it gets. Its values are texts: numbers and names as they are, operations in
parentheses with the operator first. From a given call on it can be made to refuse.
-/

namespace ComplexFormula.Transcript

/-- The number of the call that was refused. -/
structure Injected where
  call : Nat

def Injected.message (e : Injected) : Bytes := bytes "injected " ++ decimal e.call

/-- Write down a call and answer it with `value`, unless calls from `failFrom` on are refused. -/
def record (failFrom : Option Int) (call value : Bytes) : Build (Array Bytes) Injected Bytes := do
  let index := (← get).size
  modify (·.push call)
  match failFrom with
  | some first => if first ≤ index then throw ⟨index⟩ else return value
  | none => return value

def builder (failFrom : Option Int) : Builder (Array Bytes) Injected Bytes where
  number text := record failFrom (bytes "number " ++ text) text
  name id := record failFrom (bytes "name " ++ id) id
  binary op l r := record failFrom [op.symbol] <|
    [Byte.openParen, op.symbol, Byte.space] ++ l ++ [Byte.space] ++ r ++ [Byte.closeParen]
  ofWord := some
  kind _ := bytes "string"

end ComplexFormula.Transcript
