import ComplexFormula.CommandLine.Flags
import ComplexFormula.Compilation
import ComplexFormula.Formula.Printer
import ComplexFormula.Numeral.Complex
import ComplexFormula.Program.Evaluation
import ComplexFormula.Program.Listing

/-!
# The commands

`parse` prints formulas fully parenthesized, `compile` prints the Go file of one formula, and `eval` prints the
values of formulas at a point. What was printed before an error stays printed.
-/

namespace ComplexFormula.CommandLine

/-- What a run leaves behind. -/
structure Report where
  output : Bytes
  error : Option Bytes

namespace Report

def succeed (output : Bytes) : Report := ⟨output, none⟩

def fail (error : Bytes) : Report := ⟨[], some error⟩

/-- The same report with a label before its error. -/
def under (label : Bytes) (r : Report) : Report := ⟨r.output, r.error.map (label ++ bytes ": " ++ ·)⟩

/-- Print what comes of every argument, up to the first that fails. -/
def forEach (print : Bytes → Except Bytes Bytes) : List Bytes → Report
  | [] => succeed []
  | arg :: rest =>
    match print arg with
    | .ok text =>
      let later := forEach print rest
      ⟨text ++ later.output, later.error⟩
    | .error e => fail e

end Report

structure Command where
  name : Bytes
  description : Bytes
  flags : List Flag
  action : Request → Report

/-! ## Flags -/

def traceFlag : Flag where
  name := bytes "verbosity"
  aliases := [bytes "v"]
  initial := []
  description := bytes "trace topics: dump_values, dump_uses, dump_program"

def packageFlag : Flag := ⟨bytes "pkg", [], bytes "main", bytes "package name"⟩

def functionFlag : Flag := ⟨bytes "func", [], bytes "f", bytes "function name"⟩

def pointFlag : Flag := ⟨bytes "at", [], bytes "0", bytes "complex value of z, like 2+1i"⟩

/-! ## Actions -/

/-- An error that concerns one formula. -/
def about (activity : String) (formula message : Bytes) : Bytes :=
  bytes activity ++ [Byte.space] ++ Quoted.double formula ++ bytes ": " ++ message

def compileFormula (formula : Bytes) : Except Bytes Program :=
  (compile formula).mapError fun e => about "compile" formula (e.message?.getD [])

def printFormula (formula : Bytes) : Except Bytes Bytes := do
  let tree ← (Formula.parse formula).mapError fun e => about "parse" formula ((e.message? nofun).getD [])
  let text ← (tree.append []).mapError fun e => about "format" formula e.message
  return text ++ [Byte.lineFeed]

def printValue (re im : Binary64) (formula : Bytes) : Except Bytes Bytes := do
  let p ← compileFormula formula
  let (x, y) ← (p.call binary64 re im).mapError fun f => f.message?.getD []
  return formula ++ bytes " = " ++ Numeral.writeComplex x y ++ [Byte.lineFeed]

def printFormulas (request : Request) : Report := .forEach printFormula request.arguments

def printFile (request : Request) : Report :=
  match request.arguments with
  | [formula] =>
    match compileFormula formula with
    | .ok p => .succeed ((p.appendFile? [] (request.value packageFlag) (request.value functionFlag)).getD [])
    | .error e => .fail e
  | formulas => .fail (bytes "expected exactly one formula, got " ++ decimal formulas.length)

def printValues (request : Request) : Report :=
  match Numeral.readComplex (request.value pointFlag) with
  | .ok (re, im) => .forEach (printValue re im) request.arguments
  | .error e => .fail (bytes "parse --at: " ++ e.message)

/-! ## Commands -/

def commands : List Command :=
  [ ⟨bytes "parse", bytes "print formulas fully parenthesized", [traceFlag], printFormulas⟩,
    ⟨bytes "compile", bytes "print a formula compiled to a Go function",
      [packageFlag, functionFlag, traceFlag], printFile⟩,
    ⟨bytes "eval", bytes "evaluate formulas at z", [pointFlag, traceFlag], printValues⟩ ]

/-! ## Help -/

/-- A line of a help section. -/
def helpLine (name description : Bytes) : Bytes :=
  List.replicate 4 Byte.space ++ name ++ List.replicate (20 - name.length) Byte.space ++ bytes " - " ++ description
    ++ [Byte.lineFeed]

/-- The line of a flag. The value it has in the request is shown as its default. -/
def flagHelp (request : Request) (f : Flag) : Bytes :=
  let value := request.value f
  helpLine (joinWith [Byte.comma] (f.name :: f.aliases))
    (f.description ++ if value = [] then [] else bytes " (default " ++ value ++ bytes ")")

def Command.help (c : Command) (request : Request) : Bytes :=
  c.name ++ bytes " [flags_and_args] - " ++ c.description ++ bytes "\n\nFlags\n"
    ++ c.flags.flatMap (flagHelp request)
    ++ helpLine (bytes "help,h=[hidden]") (bytes "print command help end exit")

/-- The help of the program itself. -/
def help : Bytes :=
  bytes "calc [flags] - calc compiles complex-valued formulas of z\n\nSubcommands\n"
    ++ commands.flatMap fun c => helpLine c.name c.description

/-! ## Running -/

def Command.run (c : Command) (args : List Bytes) : Report :=
  match readArguments c.flags args .empty with
  | .ok request => c.action request
  | .error (.help request) => .succeed (c.help request)
  | .error (.misused e) => .fail e.message

/-- The first argument chooses a command. Before it there are no flags to be had. -/
def run : List Bytes → Report
  | [] => .succeed help
  | arg :: rest =>
    if isFlag arg then .fail (UsageError.noSuchFlag arg).message
    else
      match commands.find? (·.name == arg) with
      | some c => (c.run rest).under c.name
      | none => .fail (UsageError.unexpectedArgument arg).message

end ComplexFormula.CommandLine
