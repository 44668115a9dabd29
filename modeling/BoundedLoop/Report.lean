import BoundedLoop.Compile
import BoundedLoop.Text.Blank
import BoundedLoop.Text.Layout

/-!
# Reports

A report shows a problem under a headline: the lines of the source that it concerns, with the bytes
in question marked and the message at the mark. All widths are in bytes, so a character of several
bytes has as many marks below it.
-/

namespace BoundedLoop.Report

/-- A place in a text that is split into lines: how many lines come before, and how many bytes of
its own line. -/
structure Spot where
  line : Nat
  bytes : Nat
deriving DecidableEq

/-- The spot of `offset` in `lines`, the first of which has number `line` and begins at `start`. The
end of a line belongs to it. -/
def spot? (offset : Nat) (line start : Nat) : List String → Option Spot
  | [] => none
  | l :: lines =>
    let stop := start + l.utf8ByteSize
    if offset ≤ stop then some ⟨line, offset - start⟩
    else spot? offset (line + 1) (stop + 1) lines

def repeated (c : Char) (n : Nat) : String :=
  String.ofList (List.replicate n c)

def blanks : Nat → String := repeated ' '

def dashes : Nat → String := repeated '─'

/-- The marks below one line: bytes `s` up to `e` of a line of `size` bytes. -/
def markOne (s e size : Nat) (message : String) : List String :=
  let width := e - s
  let left := width / 2
  let right := width - left - 1
  let after := size - e
  [" " ++ blanks s ++ dashes left ++ "┬" ++ dashes right ++ blanks after,
    " " ++ blanks (s + left) ++ "│" ++ blanks (right + after),
    " " ++ blanks (s + left) ++ "╰" ++ dashes (right + after + 1) ++ " " ++ message]

/-- The arrow out of a first line, at byte `s` of it. -/
def markFirst (s : Nat) : List String :=
  ["   " ++ blanks s ++ "▲", " ╭" ++ dashes (s + 1) ++ "╯"]

/-- The bar that passes a line of `size` bytes between the first and the last. -/
def markMiddle (size : Nat) : List String :=
  [" │" ++ blanks size]

/-- The arrow into a last line of `size` bytes, at byte `e` of it. -/
def markLast (e size : Nat) (message : String) : List String :=
  let after := size - e
  [" │" ++ blanks e ++ "▲" ++ blanks after,
    " │" ++ blanks e ++ "│" ++ blanks after,
    " ╰" ++ dashes e ++ "┴" ++ dashes (after + 1) ++ " " ++ message]

/-- A line of source with its number, right-aligned to `width`, and the marks below it. -/
def sourceLine (width number : Nat) (text : String) (marks : List String) : List String :=
  (Text.padLeft ' ' width (toString number) ++ " │ " ++ text) ::
    marks.map (blanks width ++ " ┆" ++ ·)

/-- The rows that show the bytes from `start` to `stop` of `lines`. -/
def rows (width : Nat) (lines : List String) (start stop : Spot) (message : String) :
    List String :=
  let text := fun n => lines.getD n ""
  let size := fun n => (text n).utf8ByteSize
  if start.line = stop.line then
    sourceLine width (start.line + 1) (text start.line)
      (markOne start.bytes stop.bytes (size start.line) message)
  else
    let middle := (List.range' (start.line + 1) (stop.line - start.line - 1)).flatMap fun n =>
      sourceLine width (n + 1) ("│ " ++ text n) (markMiddle (size n))
    sourceLine width (start.line + 1) ("  " ++ text start.line) (markFirst start.bytes) ++ middle ++
      sourceLine width (stop.line + 1) ("│ " ++ text stop.line)
        (markLast stop.bytes (size stop.line) message)

/-- The bytes to show for a span: those of the span, or of the last visible character if the span is
empty. -/
def shown? (source : String) (span : Span) : Option Span :=
  if span.start < span.stop then some span
  else (Text.lastVisible? source).map fun (start, stop) => ⟨start, stop⟩

/-- The picture of a span of the text `source`, which is called `name`. -/
def picture? (name source : String) (span : Span) (message : String) : Option (List String) := do
  let span ← shown? source span
  let lines := source.splitOn "\n"
  let start ← spot? span.start 0 0 lines
  let stop ← spot? span.stop 0 0 lines
  let width := (toString (stop.line + 1)).length
  return [blanks width ++ " ╭─[" ++ name ++ "]", blanks width ++ " │"] ++
    rows width lines start stop message ++ [dashes (width + 1) ++ "╯"]

/-- A headline and the picture below it, or the mere message if there is nothing to show. -/
def report (name source headline : String) (span : Span) (message : String) : String :=
  let picture := (picture? name source span message).getD ["  " ++ message]
  String.join ((("error: " ++ headline) :: picture).map (· ++ "\n"))

def lineAndColumn (site : Site) : String :=
  "line " ++ toString site.line ++ " column " ++ toString site.column

def ofScanError (name source : String) (e : ScanError) : String :=
  report name source (lineAndColumn e.toSite) e.span e.problem.message

def ofDiagnostic (name source : String) (d : Diagnostic) : String :=
  report name source ("[" ++ d.code.name ++ "] " ++ lineAndColumn d.toSite) d.span d.problem.message

/-- The reports on a text that does not compile. -/
def ofFailure (name source : String) : CompileFailure → String
  | .scan e => ofScanError name source e
  | .compile found => String.join (found.map (ofDiagnostic name source))

end BoundedLoop.Report
