import BoundedLoop.Text.Decimal

/-!
# Options of the command line

Arguments are read from left to right. The first one that cannot be read makes the whole line
unusable, and asking for the version or for help takes effect at once.
-/

namespace BoundedLoop.CommandLine

structure Options where
  /-- the program to run; without one, programs are typed in -/
  file : Option String := none
  /-- whether to show the code before it runs -/
  disassemble : Bool := false
  /-- whether to stop before it runs -/
  noRun : Bool := false
  /-- how many instructions may run; without a number, any -/
  fuel : Option Int32 := none
deriving DecidableEq

/-- What a command line asks for. -/
inductive Request where
  | run (options : Options)
  | version
  | help
deriving DecidableEq

inductive UsageError where
  | unknownOption (argument : String)
  | unexpectedArgument (argument : String)
  | repeated (option : String)
  | missingValue (option : String)
  | invalidValue (value option : String)
  | emptyFile
deriving DecidableEq

/-- The error in words. They are made up here: how an argument parser words its errors is no part of
the model, and nothing depends on it. -/
def UsageError.message : UsageError → String
  | unknownOption argument => "unknown option '" ++ argument ++ "'"
  | unexpectedArgument argument => "unexpected argument '" ++ argument ++ "'"
  | repeated option => "option '" ++ option ++ "' is given twice"
  | missingValue option => "option '" ++ option ++ "' needs a value"
  | invalidValue value option => "invalid value '" ++ value ++ "' for option '" ++ option ++ "'"
  | emptyFile => "the name of the file is empty"

/-- The number that decimal digits spell, if they are digits and at least one. -/
def digits? (cs : List Char) : Option Nat :=
  if cs.isEmpty || !cs.all Char.isDigit then none else some (Text.decimal cs)

/-- A decimal integer, with or without a sign, that fits 32 bits. -/
def int32? (s : String) : Option Int32 := do
  let n : Int ← match s.toList with
    | '-' :: cs => (digits? cs).map fun n => -(n : Int)
    | '+' :: cs => (digits? cs).map fun n => (n : Int)
    | cs => (digits? cs).map fun n => (n : Int)
  if Int32.minValue.toInt ≤ n ∧ n ≤ Int32.maxValue.toInt then some (Int32.ofInt n) else none

namespace Options

def setFuel (o : Options) (value : String) : Except UsageError Options :=
  if o.fuel.isSome then .error (.repeated "--fuel")
  else
    match int32? value with
    | some fuel => .ok { o with fuel := some fuel }
    | none => .error (.invalidValue value "--fuel")

def setFile (o : Options) (name : String) : Except UsageError Options :=
  if o.file.isSome then .error (.unexpectedArgument name)
  else if name.isEmpty then .error .emptyFile
  else .ok { o with file := some name }

def setDisassemble (o : Options) : Except UsageError Options :=
  if o.disassemble then .error (.repeated "--disassemble") else .ok { o with disassemble := true }

def setNoRun (o : Options) : Except UsageError Options :=
  if o.noRun then .error (.repeated "--no-run") else .ok { o with noRun := true }

end Options

/-- The value that is attached to the option `name` by an equals sign. -/
def attachedValue? (name : String) (argument : String) : Option String :=
  let start := (name ++ "=").toList
  let chars := argument.toList
  if start.isPrefixOf chars then some (String.ofList (chars.drop start.length)) else none

/-- Reads arguments behind `--`, which are never options. -/
def readFiles (o : Options) : List String → Except UsageError Options
  | [] => .ok o
  | name :: rest => do readFiles (← o.setFile name) rest

/-- Reads an argument that starts with one dash: short options, of which the first decides. -/
def readShort (argument : String) : Except UsageError Request :=
  match argument.toList with
  | '-' :: 'V' :: _ => .ok .version
  | '-' :: 'h' :: _ => .ok .help
  | _ => .error (.unknownOption argument)

/-- Reads the arguments behind those that gave the options `o`. -/
def readFrom (o : Options) : List String → Except UsageError Request
  | [] => .ok (.run o)
  | argument :: rest =>
    if argument = "--" then (readFiles o rest).map .run
    else if argument = "--version" then .ok .version
    else if argument = "--help" then .ok .help
    else if argument = "--disassemble" then do readFrom (← o.setDisassemble) rest
    else if argument = "--no-run" then do readFrom (← o.setNoRun) rest
    else if argument = "--fuel" then
      match rest with
      | [] => .error (.missingValue "--fuel")
      | value :: rest =>
        if value.startsWith "-" then .error (.missingValue "--fuel")
        else do readFrom (← o.setFuel value) rest
    else
      match attachedValue? "--fuel" argument with
      | some value => do readFrom (← o.setFuel value) rest
      | none =>
        if argument.startsWith "--" then .error (.unknownOption argument)
        else if argument.startsWith "-" && argument != "-" then readShort argument
        else do readFrom (← o.setFile argument) rest

/-- What the arguments of a command line ask for. -/
def Request.ofArguments (arguments : List String) : Except UsageError Request :=
  readFrom {} arguments

end BoundedLoop.CommandLine
