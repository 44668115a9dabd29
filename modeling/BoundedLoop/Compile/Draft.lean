import BoundedLoop.Diagnostic
import BoundedLoop.Operator

/-!
# The draft of a compilation

`Draft` is all that a compilation holds: the tokens still ahead, the code written so far, the
variables, the loops and blocks that are open, and the problems found. `CompileM` computes on a
draft and may give up with a diagnostic; the draft then stays as it was at that moment.
-/

namespace BoundedLoop

structure Draft where
  /-- the tokens still to be read, up to the end of the input -/
  ahead : List Token
  /-- the end of the input -/
  finish : Token
  chunk : Chunk := {}
  scope : Scope := {}
  /-- for each open loop, the innermost first, the jumps that leave it, the latest first -/
  loops : List (List Chunk.Label) := []
  /-- how many statements with a block are open -/
  depth : Nat := 0
  diagnostics : Array Diagnostic := #[]

abbrev CompileM := EStateM Diagnostic Draft

namespace Draft

/-- The end of the input that `tokens` leave out: right behind the last of them. Its column is
counted in 64 bits. -/
def impliedEnd (tokens : List Token) : Token :=
  match tokens.getLast? with
  | none => { span := ⟨0, 0⟩, line := 1, column := 1, kind := .eof, lexeme := "" }
  | some last =>
    { span := ⟨last.span.stop, last.span.stop⟩
      line := last.line
      column := (last.column + last.lexeme.length) % UInt64.size
      kind := .eof
      lexeme := "" }

/-- The first end of the input among `tokens`, or the implied one. -/
def endOf (tokens : List Token) : Token :=
  (tokens.find? (·.kind = .eof)).getD (impliedEnd tokens)

/-- The draft at the start: nothing is written, and `OUTPUT` is declared. -/
def ofTokens (tokens : List Token) : Draft where
  ahead := tokens.takeWhile (·.kind ≠ .eof)
  finish := endOf tokens
  chunk := ({} : Chunk).takeSlot
  scope := ({} : Scope).declare Token.outputName Chunk.outputSlot

/-- The token to be read next. -/
def next (d : Draft) : Token :=
  d.ahead.headD d.finish

/-- Adds a diagnostic. That the input ends too early is said only once. -/
def record (d : Draft) (found : Diagnostic) : Draft :=
  if found.code = .unexpectedEnd ∧ d.diagnostics.any (·.code = .unexpectedEnd) then d
  else { d with diagnostics := d.diagnostics.push found }

end Draft

namespace CompileM

def fail {α : Type} (site : Site) (problem : Problem) : CompileM α :=
  throw { toSite := site, problem }

/-! ### Reading tokens -/

def peek : CompileM Token :=
  return (← get).next

def advance : CompileM Unit :=
  modify fun d => { d with ahead := d.ahead.tail }

/-- Reads a token of the given kind, if it comes next, and says whether it did. -/
def accept (kind : Token.Kind) : CompileM Bool := do
  let token ← peek
  if token.kind = kind then
    advance
    return true
  else
    return false

/-- Complains that `token` stands where `wanted` should. -/
def missing {α : Type} (wanted : Expectation) (token : Token) : CompileM α :=
  fail token.toSite (.missing wanted (if token.kind = .eof then none else some token.text))

/-- Reads a token that has to be of the given kind. -/
def expect (kind : Token.Kind) (wanted : Expectation) : CompileM Unit := do
  let token ← peek
  if token.kind = kind then
    advance
  else
    missing wanted token

/-! ### Writing code -/

def emit (i : Instruction) (line : Nat) : CompileM Unit :=
  modify fun d => { d with chunk := d.chunk.emit i line }

/-- Writes a jump whose target is not known yet. -/
def reserve (branch : Branch) (line : Nat) : CompileM Chunk.Label := do
  let label := (← get).chunk.nextLabel
  modify fun d => { d with chunk := d.chunk.reserve branch line }
  return label

/-- Makes the jump of `label` lead to the end of the code. A jump that would be too long is blamed
on `site`. -/
def patch (site : Site) (label : Chunk.Label) : CompileM Unit := do
  match (← get).chunk.reach label with
  | .error jump => fail site (.blockTooLarge jump)
  | .ok distance => modify fun d => { d with chunk := d.chunk.setDistance label distance }

/-- Writes the jump back to `target` that ends a loop. -/
def jumpBack (site : Site) (target line : Nat) : CompileM Unit := do
  match (← get).chunk.distanceTo target with
  | .error jump => fail site (.loopTooLarge jump)
  | .ok distance => emit (.jump distance) line

/-- Takes a slot that nothing else uses. -/
def takeSlot (site : Site) : CompileM UInt8 := do
  match (← get).chunk.freeSlot? with
  | none => fail site .tooManyVariables
  | some slot =>
    modify fun d => { d with chunk := d.chunk.takeSlot }
    return slot

/-! ### Open statements -/

def openStatement : CompileM Unit :=
  modify fun d => { d with depth := d.depth + 1 }

def closeStatement : CompileM Unit :=
  modify fun d => { d with depth := d.depth - 1 }

end CompileM

end BoundedLoop
