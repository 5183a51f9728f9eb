import ComplexFormula.Main
import ComplexFormula.Transcript
import ComplexFormula.Wire
import ComplexFormula.Proofs.BitSet
import ComplexFormula.Proofs.ValueTable.Basic
import ComplexFormula.Proofs.ValueTable.Runs
import ComplexFormula.Proofs.Program.Emission
import ComplexFormula.Proofs.Program.SingleAssignment
import ComplexFormula.Proofs.Grammar.ParseTree
import ComplexFormula.Proofs.Grammar.Scan
import ComplexFormula.Proofs.Grammar.Answers
import ComplexFormula.Proofs.Grammar.Reading
import ComplexFormula.Proofs.Grammar.Lexemes
import ComplexFormula.Proofs.Grammar.Derivation
import ComplexFormula.Proofs.ValueTable.Simplification
import ComplexFormula.Proofs.Compilation
import ComplexFormula.Proofs.Streaming
import ComplexFormula.Proofs.ValueTable.Calls
import ComplexFormula.Proofs.Grammar.Printing
import ComplexFormula.Proofs.Program.Inlining
import ComplexFormula.Proofs.Grammar.ViablePrefix
import ComplexFormula.Proofs.Totality
import ComplexFormula.Proofs.Binary64.Rounding
import ComplexFormula.Proofs.Numeral.Decimal
import ComplexFormula.Proofs.Numeral.RoundTrip
import ComplexFormula.Proofs.Listing.Reader
import ComplexFormula.Proofs.Listing.Phrases
import ComplexFormula.Proofs.Listing.ReadBack
import ComplexFormula.Proofs.ValueTable.Sharing
import ComplexFormula.Proofs.ValueTable.NormalForm
import ComplexFormula.Proofs.Listing.Declarations
import ComplexFormula.Proofs.Grammar.Cursor
import ComplexFormula.Proofs.Grammar.Termination
import ComplexFormula.Proofs.BitSet.FiniteSet
import ComplexFormula.Proofs.ValueTable.Origins
import ComplexFormula.Proofs.Numeral.Shortest
import ComplexFormula.Proofs.ValueTable.Folding
import ComplexFormula.Proofs.Grammar.Literals
import ComplexFormula.Proofs.Listing.Literals
import ComplexFormula.Proofs.Listing.Limits
