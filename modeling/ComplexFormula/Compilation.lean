import ComplexFormula.Components
import ComplexFormula.Program.Emission

/-!
# Compilation

A formula is decomposed into components and the components are emitted as a program. From a text this happens while
it is read, without a tree.
-/

namespace ComplexFormula

inductive CompileError where
  /-- There is no text to be had. -/
  | unreadable
  | rejected (why : Rejection DecompositionError)
  | decomposition (error : DecompositionError)
  | emission (error : EmissionError)

/-- The program that computes both components. -/
def Components.toProgram (p : Components) (t : ValueTable) : Except CompileError Program :=
  (t.toProgram p.re p.im).mapError .emission

/-- The program of a text. -/
def compile (text : Bytes) : Except CompileError Program :=
  match Components.builder.drive text .new with
  | (.ok p, t) => p.toProgram t
  | (.error why, _) => .error (.rejected why)

/-- The program of a tree. -/
def Formula.compile (x : Formula) : Except CompileError Program :=
  match x.decompose.run.run .new with
  | (.ok p, t) => p.toProgram t
  | (.error e, _) => .error (.decomposition e)

/-- The program of the contents of a file, if it could be read. -/
def compileContents : Option Bytes → Except CompileError Program
  | some text => ComplexFormula.compile text
  | none => .error .unreadable

/-- The text of an error, if it has one. -/
def CompileError.message? : CompileError → Option Bytes
  | .unreadable => none
  | .rejected why => why.message? DecompositionError.message
  | .decomposition e => some e.message
  | .emission e => some (bytes "emit: " ++ e.message)

end ComplexFormula
