import Std.Data.HashMap
import ComplexFormula.Grammar.Builder

/-!
# The table of values

Real arithmetic is recorded in a table to which entries are only ever added. An entry is one of the two components
of the argument, a constant, or an operation on earlier entries. Equal entries are the same entry: `intern` gives
back the place of an equal value if there is one, and otherwise puts the value at the end. Constants are equal if
their texts are.

A table can note which entries were added while it was told to record their origin.
-/

namespace ComplexFormula

/-- A place in a table. Any integer may be offered as one. -/
abbrev Ref := Int

inductive Kind where
  | argument
  | constant
  | binary
  /-- Entries of other kinds can be stored but mean nothing. -/
  | other (code : Int)
deriving DecidableEq, Hashable

namespace Kind

def ofCode (code : Int) : Kind :=
  if code = 0 then .argument else if code = 1 then .constant else if code = 2 then .binary else .other code

def code : Kind → Int
  | .argument => 0
  | .constant => 1
  | .binary => 2
  | .other code => code

def label : Kind → Bytes
  | .argument => bytes "arg"
  | .constant => bytes "const"
  | .binary => bytes "binop"
  | .other code => bytes "Kind(" ++ decimalInt code ++ bytes ")"

end Kind

structure Value where
  kind : Kind
  symbol : UInt8
  left : Ref
  right : Ref
  text : Bytes
deriving DecidableEq, Hashable

namespace Value

def argument (name : Bytes) : Value := ⟨.argument, 0, 0, 0, name⟩

def constant (text : Bytes) : Value := ⟨.constant, 0, 0, 0, text⟩

def binary (op : Operator) (left right : Ref) : Value := ⟨.binary, op.symbol, left, right, []⟩

/-- Operations show their operator between two places; everything else is its text. -/
def toText (v : Value) : Bytes :=
  match v.kind with
  | .binary =>
    [Byte.percent] ++ decimalInt v.left ++ [Byte.space] ++ Byte.asChar v.symbol
      ++ [Byte.space, Byte.percent] ++ decimalInt v.right
  | _ => v.text

def isConstant (v : Value) : Bool := v.kind = .constant

def isText (v : Value) (text : Bytes) : Bool := v.isConstant && v.text == text

def isZero (v : Value) : Bool := v.isText [Byte.zero]

def isOne (v : Value) : Bool := v.isText [Byte.one]

end Value

/-! ## Tables -/

structure ValueTable where
  values : Array Value
  index : Std.HashMap Value Nat
  /-- Whether entries added from now on are noted. -/
  recording : Bool
  /-- For every entry, as far as this list goes, whether it was noted. -/
  origins : Array Bool

/-- Why a table refuses. -/
inductive TableFault where
  | outOfTable
  /-- An operation on places that the table does not have. -/
  | detached (v : Value)
deriving DecidableEq

/-- The text of a fault, if it has one. -/
def TableFault.message? : TableFault → Option Bytes
  | .outOfTable => none
  | .detached v => some (bytes "binop operand out of table: " ++ v.toText)

namespace ValueTable

def size (t : ValueTable) : Nat := t.values.size

/-- Whether a place is in the table. -/
def holds (t : ValueTable) (r : Ref) : Bool := 0 ≤ r ∧ r < t.size

/-- The entry at a place. -/
def get? (t : ValueTable) (r : Ref) : Option Value := if r < 0 then none else t.values[r.toNat]?

def get (t : ValueTable) (r : Ref) : Except TableFault Value :=
  match t.get? r with
  | some v => .ok v
  | none => .error .outOfTable

/-- The list of notes after adding an entry: entries added without a note before are filled in as such. -/
def notedOrigins (t : ValueTable) : Array Bool :=
  if t.recording then (t.origins ++ Array.replicate (t.size - t.origins.size) false).push true else t.origins

/-- Add an entry at the end. -/
def push (t : ValueTable) (v : Value) : ValueTable where
  values := t.values.push v
  index := t.index.insert v t.size
  recording := t.recording
  origins := t.notedOrigins

/-- The place of a value, added if need be. -/
def intern (v : Value) : Build ValueTable TableFault Ref := fun t =>
  match t.index[v]? with
  | some r => (.ok r, t)
  | none =>
    if v.kind = .binary ∧ ¬(t.holds v.left ∧ t.holds v.right) then (.error (.detached v), t)
    else (.ok t.size, t.push v)

def constant (text : Bytes) : Build ValueTable TableFault Ref := intern (.constant text)

/-- Nothing at all, not even the argument. -/
def bare : ValueTable := ⟨#[], ∅, false, #[]⟩

/-- The table that holds the real and the imaginary part of the argument, at the places 0 and 1. -/
def new : ValueTable := (bare.push (.argument (bytes "re"))).push (.argument (bytes "im"))

/-- Whether the entry at a place was noted. Places the notes do not reach were not; there are none before the first. -/
def origin? (t : ValueTable) (r : Ref) : Option Bool :=
  if r < 0 then none else some ((t.origins[r.toNat]?).getD false)

def record (t : ValueTable) (on : Bool) : ValueTable := { t with recording := on }

/-- One line for every entry: its kind and its text. -/
def dump (t : ValueTable) : List Bytes := t.values.toList.map fun v => v.kind.label ++ [Byte.space] ++ v.toText

end ValueTable

end ComplexFormula
