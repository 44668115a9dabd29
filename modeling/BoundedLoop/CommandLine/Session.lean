import BoundedLoop.CommandLine.FileTree
import BoundedLoop.CommandLine.Options
import BoundedLoop.Bytecode.Listing
import BoundedLoop.Machine.Run
import BoundedLoop.Report
import BoundedLoop.Text.Erase

/-!
# Sessions

What the command line prints. `process` compiles and runs one program. A program in a file is
processed once (`fileTranscript`). Programs that are typed in are processed at each blank line
(`Buffer.feed`): the lines typed so far stay, so each time the program has grown.

A program that runs without a limit may run for ever, so how to run a chunk to its end is a
parameter here, `runToEnd`.
-/

namespace BoundedLoop.CommandLine

/-- What one program printed, and whether it ran to its end. -/
structure Verdict where
  text : String
  completed : Bool
deriving DecidableEq

/-- The words for the end of a run that stopped at the machine `m`. -/
def verdictOf (stop : Stop) (m : Machine) : Verdict :=
  match stop with
  | .output v => ⟨v.text ++ "\n", true⟩
  | .outOfFuel => ⟨"stopped: out of fuel at offset " ++ toString m.ip ++ "\n", false⟩
  | .fault f => ⟨"fault: " ++ f.message ++ "\n", false⟩

/-- Runs a chunk, on limited fuel if the options say so. -/
def runChunk (runToEnd : Chunk → Stop × Machine) (o : Options) (chunk : Chunk) : Verdict :=
  match o.fuel with
  | some n =>
    let (stop, _, m) := Machine.step chunk ⟨n⟩ (.ofChunk chunk)
    verdictOf stop m
  | none =>
    let (stop, m) := runToEnd chunk
    verdictOf stop m

/-- Compiles and runs the program `source`, which reports call `name`. -/
def process (runToEnd : Chunk → Stop × Machine) (o : Options) (name source : String) : Verdict :=
  match compile source with
  | .error failure => ⟨Report.ofFailure name source failure, false⟩
  | .ok chunk =>
    let listing := if o.disassemble then chunk.listing else ""
    if o.noRun then ⟨listing, true⟩
    else
      let verdict := runChunk runToEnd o chunk
      { verdict with text := listing ++ verdict.text }

/-- All that a command leaves behind. -/
structure Transcript where
  exitCode : UInt8 := 0
  out : String := ""
  err : String := ""
deriving DecidableEq

/-- Processing the program in a file, given its content or the reason why it cannot be read. -/
def fileTranscript (runToEnd : Chunk → Stop × Machine) (o : Options) (file : String) :
    Except String String → Transcript
  | .error reason =>
    { exitCode := 1
      err := "Error: could not read " ++ file ++ "\n\nCaused by:\n    " ++ reason ++ "\n" }
  | .ok source =>
    let verdict := process runToEnd o file source
    if verdict.completed then { out := verdict.text }
    else
      { exitCode := 1
        out := verdict.text
        err := "Error: " ++ file ++ " did not run to completion\n" }

/-- The name that reports give to a program that is typed in. -/
def typedName : String := "repl"

/-- The lines typed so far, each ended by a newline. -/
structure Buffer where
  text : String := ""
deriving DecidableEq

/-- Takes one more line, and gives what is printed then. A blank line is not kept: it asks to
process what has been typed, if there is anything. -/
def Buffer.feed (runToEnd : Chunk → Stop × Machine) (o : Options) (b : Buffer) (line : String) :
    Buffer × String :=
  if Text.isBlankText line then
    if b.text.isEmpty then (b, "") else (b, (process runToEnd o typedName b.text).text)
  else
    (⟨b.text ++ line ++ "\n"⟩, "")

/-- The output of a sequence of lines. -/
def Buffer.feedAll (runToEnd : Chunk → Stop × Machine) (o : Options) :
    Buffer → List String → String
  | _, [] => ""
  | b, line :: lines =>
    let (b, printed) := b.feed runToEnd o line
    printed ++ b.feedAll runToEnd o lines

/-- A line of input without its line feed and a carriage return in front of that. -/
def stripLineEnd (raw : List Char) : List Char :=
  match raw.reverse with
  | '\n' :: '\r' :: cs => cs.reverse
  | '\n' :: cs => cs.reverse
  | _ => raw

/-- The lines of an input, each with its line feed; the last one may lack it. `begun` is the start
of the first line, backwards. -/
def rawLines (begun : List Char) : List Char → List (List Char)
  | [] => if begun.isEmpty then [] else [begun.reverse]
  | c :: cs =>
    if c = '\n' then (c :: begun).reverse :: rawLines [] cs else rawLines (c :: begun) cs

/-- The line that was meant: without its end, and with backspaces taken into account. -/
def typedLine (raw : List Char) : String :=
  String.ofList (Text.erase (stripLineEnd raw))

def inputLines (input : String) : List String :=
  (rawLines [] input.toList).map typedLine

/-- Processing the programs that are typed in as `input`. -/
def typedTranscript (runToEnd : Chunk → Stop × Machine) (o : Options) (input : String) :
    Transcript :=
  { out := ({} : Buffer).feedAll runToEnd o (inputLines input) }

def versionText : String := "gloop_repl 0.1.0\n"

/-- A line of help, also made up here: what an argument parser shows as help is no part of the model. -/
def helpText : String :=
  "Usage: gloop_repl [--disassemble] [--no-run] [--fuel N] [FILE]\n"

/-- All that a command leaves behind, given the files within its reach and what is typed in. What it
says about arguments that cannot be read, and as help, is in words of its own. -/
def transcript (runToEnd : Chunk → Stop × Machine) (files : Surroundings) (input : String)
    (arguments : List String) : Transcript :=
  match Request.ofArguments arguments with
  | .error e => { exitCode := 2, err := "error: " ++ e.message ++ "\n" ++ helpText }
  | .ok .version => { out := versionText }
  | .ok .help => { out := helpText }
  | .ok (.run o) =>
    match o.file with
    | some file =>
      fileTranscript runToEnd o file ((files.read file).mapError ReadError.message)
    | none => typedTranscript runToEnd o input

end BoundedLoop.CommandLine
