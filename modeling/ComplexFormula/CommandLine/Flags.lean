import ComplexFormula.Text.Bytes

/-!
# Flags

An argument that starts with a dash, and is more than one or two dashes, is a flag. Its name ends at the first `=`
or space, and its value is what follows; a flag without either takes the next argument as its value. Flags and
arguments mix freely, and of two values for one flag the later counts. Two dashes alone make everything after them
an argument.

The flag `help` is always there. It takes no value and stops the reading; what was asked for up to it is kept.
-/

namespace ComplexFormula.CommandLine

structure Flag where
  name : Bytes
  /-- Further names. -/
  aliases : List Bytes
  /-- The value when none is given. -/
  initial : Bytes
  description : Bytes

inductive UsageError where
  | noSuchFlag (arg : Bytes)
  | valueRequired (arg : Bytes)
  | unexpectedArgument (arg : Bytes)
deriving DecidableEq

def UsageError.message : UsageError → Bytes
  | .noSuchFlag arg => bytes "parse flag: " ++ arg ++ bytes ": no such flag"
  | .valueRequired arg => bytes "parse flag: " ++ arg ++ bytes ": flag value is required"
  | .unexpectedArgument arg => bytes "no args expected, got " ++ arg

/-! ## One argument -/

def isFlag (arg : Bytes) : Bool :=
  arg.head? == some Byte.minus && arg != [Byte.minus] && arg != [Byte.minus, Byte.minus]

/-- A flag without its dashes. -/
def undashed : Bytes → Bytes
  | Byte.minus :: Byte.minus :: rest => rest
  | Byte.minus :: rest => rest
  | arg => arg

/-- The name of a flag, and its value if it carries one. -/
def splitFlag (arg : Bytes) : Bytes × Option Bytes :=
  let body := undashed arg
  let name := body.takeWhile fun b => b != Byte.equals && b != Byte.space
  match body.drop name.length with
  | [] => (name, none)
  | _ :: value => (name, some value)

def isHelp (name : Bytes) : Bool := name == bytes "help" || name == bytes "h"

def Flag.answersTo (f : Flag) (name : Bytes) : Bool := f.name == name || f.aliases.contains name

/-! ## All arguments -/

/-- What was asked for: the values of flags, the latest first, and the arguments in order. -/
structure Request where
  values : List (Bytes × Bytes)
  arguments : List Bytes

namespace Request

def empty : Request := ⟨[], []⟩

def withValue (r : Request) (f : Flag) (value : Bytes) : Request := ⟨(f.name, value) :: r.values, r.arguments⟩

def withArguments (r : Request) (args : List Bytes) : Request := ⟨r.values, r.arguments ++ args⟩

/-- The value of a flag. -/
def value (r : Request) (f : Flag) : Bytes := (r.values.lookup f.name).getD f.initial

end Request

/-- Why no request came of the arguments. -/
inductive Stop where
  /-- Help was asked for, after what `request` holds. -/
  | help (request : Request)
  | misused (error : UsageError)

def readArguments (flags : List Flag) : List Bytes → Request → Except Stop Request
  | [], request => .ok request
  | arg :: rest, request =>
    if arg = [Byte.minus, Byte.minus] then .ok (request.withArguments rest)
    else if isFlag arg then
      let (name, value?) := splitFlag arg
      if isHelp name then .error (.help request)
      else
        match flags.find? (·.answersTo name), value?, rest with
        | none, _, _ => .error (.misused (.noSuchFlag arg))
        | some f, some value, rest => readArguments flags rest (request.withValue f value)
        | some f, none, value :: rest => readArguments flags rest (request.withValue f value)
        | some _, none, [] => .error (.misused (.valueRequired arg))
    else readArguments flags rest (request.withArguments [arg])
termination_by args => args.length

end ComplexFormula.CommandLine
