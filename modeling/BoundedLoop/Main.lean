import BoundedLoop.CommandLine.Session

/-!
# The command

Reads files and lines, and prints. What is printed is decided by `CommandLine.Session`.
-/

namespace BoundedLoop.CommandLine

/-- Runs a chunk from its start to its end. -/
def runToEnd (chunk : Chunk) : Stop × Machine :=
  (Machine.run chunk (.ofChunk chunk)).getD default

/-- The words for a failure that the operating system names by a number, which some calls give with
a minus sign. -/
def systemText (number : UInt32) (details : String) : String :=
  let code := number.toInt32.toInt.natAbs
  match ReadError.ofCode? code with
  | some e => e.message
  | none => details ++ " (os error " ++ toString code ++ ")"

/-- The words for a failure to read a file. What is no text cannot be read either. -/
def failureText : IO.Error → String
  | .noFileOrDirectory _ number details
  | .inappropriateType _ number details
  | .invalidArgument _ number details
  | .permissionDenied _ number details
  | .resourceExhausted _ number details
  | .noSuchThing _ number details
  | .otherError number details => systemText number details
  | .userError _ => "stream did not contain valid UTF-8"
  | e => toString e

/-- The content of a file, or why it cannot be read. -/
def readSource (file : String) : IO (Except String String) := do
  try
    return .ok (← IO.FS.readFile file)
  catch e =>
    return .error (failureText e)

/-- Processes programs that are typed in, line by line. -/
partial def typeIn (o : Options) (b : Buffer) : IO Unit := do
  let raw ← (← IO.getStdin).getLine
  if raw.isEmpty then
    return
  let (b, printed) := b.feed runToEnd o (typedLine raw.toList)
  IO.print printed
  typeIn o b

def leave (t : Transcript) : IO UInt32 := do
  IO.print t.out
  IO.eprint t.err
  return t.exitCode.toUInt32

end BoundedLoop.CommandLine

open BoundedLoop.CommandLine in
def main (arguments : List String) : IO UInt32 := do
  match Request.ofArguments arguments with
  | .ok (.run o) =>
    match o.file with
    | some file => leave (fileTranscript runToEnd o file (← readSource file))
    | none =>
      typeIn o {}
      return 0
  | _ => leave (transcript runToEnd {} "" arguments)
