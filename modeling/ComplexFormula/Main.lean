import ComplexFormula.CommandLine.Commands

/-!
# The program

Prints the report of a run and ends with code 1 if there was an error.
-/

open ComplexFormula in
def main (args : List String) : IO UInt32 := do
  let report := CommandLine.run (args.map bytes)
  let output ← IO.getStdout
  output.write ⟨report.output.toArray⟩
  output.flush
  match report.error with
  | none => return 0
  | some message =>
    let errors ← IO.getStderr
    errors.write ⟨(bytes "error: " ++ message ++ [Byte.lineFeed]).toArray⟩
    return 1
