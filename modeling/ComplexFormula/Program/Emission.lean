import ComplexFormula.BitSet
import ComplexFormula.Program.Basic

/-!
# From tables to programs

Operations that are used more than once get a temporary; everything else is written where it is used. Uses are
counted over the whole table, the two results included. Temporaries are numbered in the order of the table.
-/

namespace ComplexFormula

inductive EmissionError where
  | outOfTable (ref : Ref) (size : Nat)
  /-- An argument that is neither of the two components. -/
  | strayArgument (name : Bytes) (position : Nat)
  | unknownKind (kind : Kind)
deriving DecidableEq

def EmissionError.message : EmissionError → Bytes
  | .outOfTable ref size => bytes "result " ++ decimalInt ref ++ bytes " is out of table of " ++ decimal size
  | .strayArgument name position => bytes "count uses: argument " ++ name ++ bytes " at " ++ decimal position
  | .unknownKind kind => kind.label

namespace ValueTable

/-! ## Uses -/

def addUse (counts : Array Nat) (r : Ref) : Array Nat := counts.modify r.toNat (· + 1)

/-- Add the uses that an entry makes of others. -/
def addOperandUses (counts : Array Nat) (v : Value) : Array Nat :=
  if v.kind = .binary then addUse (addUse counts v.left) v.right else counts

/-- How often every entry is used, by entries and as a result. -/
def useCounts (t : ValueTable) (re im : Ref) : Array Nat :=
  addUse (addUse (t.values.foldl addOperandUses (Array.replicate t.size 0)) re) im

def isBinary (t : ValueTable) (i : Nat) : Bool := (t.values[i]?.map (·.kind)) = some .binary

/-- The operations that are used more than once. -/
def shared (t : ValueTable) (re im : Ref) : BitSet :=
  let counts := t.useCounts re im
  ((List.range t.size).filter fun i => 2 ≤ counts[i]?.getD 0 && t.isBinary i).foldl BitSet.insert (.withRoom t.size)

/-- The first argument that is not at the place 0 or 1. -/
def strayArgument? (t : ValueTable) : Option (Value × Nat) :=
  t.values.toList.zipIdx.find? fun (v, i) => v.kind = .argument ∧ 2 ≤ i

/-! ## Expressions -/

/-- The temporary of an entry, if it has one. -/
def temporary? (shared : BitSet) (i : Nat) : Option Expr :=
  if shared.contains i then some (.temp (shared.rank i)) else none

/-- The expression that computes an entry. Operands stand before their entry, which is what ends the recursion. -/
def expand (t : ValueTable) (shared : BitSet) (i : Nat) : Except EmissionError Expr :=
  match t.values[i]? with
  | none => .error (.outOfTable i t.size)
  | some v =>
    match v.kind with
    | .argument => .ok (.arg i v.text)
    | .constant => .ok (.const v.text)
    | .other _ => .error (.unknownKind v.kind)
    | .binary =>
      if _h : v.left.toNat < i ∧ v.right.toNat < i then do
        let l ← match temporary? shared v.left.toNat with
          | some e => .ok e
          | none => t.expand shared v.left.toNat
        let r ← match temporary? shared v.right.toNat with
          | some e => .ok e
          | none => t.expand shared v.right.toNat
        .ok (.binary v.symbol l r)
      else .error (.outOfTable i t.size)
termination_by i
decreasing_by all_goals omega

/-- The expression that stands for an entry where it is used. -/
def refer (t : ValueTable) (shared : BitSet) (r : Ref) : Except EmissionError Expr :=
  match temporary? shared r.toNat with
  | some e => .ok e
  | none => t.expand shared r.toNat

/-! ## Programs -/

/-- The assignments of entries to temporaries, which are numbered from `first` on. -/
def assignments (t : ValueTable) (shared : BitSet) : (first : Nat) → List Nat → Except EmissionError (List Assign)
  | _, [] => .ok []
  | first, i :: rest => do
    let expr ← t.expand shared i
    let later ← t.assignments shared (first + 1) rest
    .ok (⟨first, expr⟩ :: later)

/-- The program that computes two entries, the operations that get a temporary being given. -/
def assemble (t : ValueTable) (shared : BitSet) (re im : Ref) : Except EmissionError Program := do
  let assigns ← t.assignments shared 0 shared.elements
  let re ← t.refer shared re
  let im ← t.refer shared im
  .ok ⟨assigns, re, im, shared.size⟩

/-- The program that computes two entries. -/
def toProgram (t : ValueTable) (re im : Ref) : Except EmissionError Program :=
  if !t.holds re then .error (.outOfTable re t.size)
  else if !t.holds im then .error (.outOfTable im t.size)
  else
    match t.strayArgument? with
    | some (v, i) => .error (.strayArgument v.text i)
    | none => t.assemble (t.shared re im) re im

end ValueTable

end ComplexFormula
