import BoundedLoop.Compile.Expression
import BoundedLoop.Compile.Recovery

/-!
# Compiling statements

A loop counts in two slots of its own: its bound, computed once, and its counter. An `IF` leaves
its branches by jumps to its end. Blocks and programs go on behind a statement that fails.

What nests is handed down: `statement` is given the means to compile the blocks inside it, and
`block` is the recursion that ties the knot.
-/

namespace BoundedLoop.CompileM

/-- The slot of a name that is assigned to, taken now if the name is new. -/
def targetSlot (site : Site) (name : String) : CompileM UInt8 := do
  match (← get).scope.find? name with
  | some v => return v.slot
  | none =>
    let slot ← takeSlot site
    modify fun d => { d with scope := d.scope.declare name slot }
    return slot

/-- Gives a type to the name that has been assigned to. -/
def assignType (site : Site) (name : String) (ty : Ty) : CompileM Unit := do
  match (← get).scope.assign name ty with
  | .ok scope => modify fun d => { d with scope }
  | .error (.conflict conflict) => fail site (.typeConflict conflict name)
  | .error .undeclared => fail site (.undefinedVariable name)

/-- Compiles an assignment to `target`, which has been read. -/
def assignment (target : Token) : CompileM Unit := do
  match target.variableName? with
  | none => fail target.toSite (.notAssignable target.text)
  | some name =>
    expect (.symbol .leftArrow) (.arrow name)
    let slot ← targetSlot target.toSite name
    let ty ← expression
    assignType target.toSite name ty
    emit (.store slot) target.line
    emit .pop target.line

/-- Compiles the condition of the branch `keyword`. -/
def condition (keyword : Token) : CompileM Unit := do
  let start ← peek
  let ty ← expression
  if ty = .boolean then
    expect (.keyword .thenWord) .thenWord
  else
    fail start.toSite (.conditionNotBoolean keyword.text ty)

/-- Compiles the branches of an `IF`, from the condition of `branch` up to the closer, and gives the
jumps that leave them. There are at most `bound` of them. `block` compiles a block. -/
def branches (block : CompileM Unit) : Nat → Token → CompileM (List Chunk.Label)
  | 0, _ => return []
  | bound + 1, branch => do
    condition branch
    let skip ← reserve .ifFalse branch.line
    emit .pop branch.line
    block
    let exit ← reserve .always branch.line
    patch branch.toSite skip
    emit .pop branch.line
    if ← accept (.keyword .elseWord) then
      let follower ← peek
      if ← accept (.keyword .ifWord) then
        let exits ← branches block bound follower
        return exit :: exits
      else
        block
        return [exit]
    else
      return [exit]

/-- Compiles an `IF` whose keyword has been read. -/
def ifStatement (block : CompileM Unit) (bound : Nat) (keyword : Token) : CompileM Unit := do
  openStatement
  let exits ← branches block bound keyword
  expect (.keyword .endIf) .endIf
  closeStatement
  exits.forM (patch keyword.toSite)

def enterLoop : CompileM Unit :=
  modify fun d => { d with loops := [] :: d.loops }

/-- Leaves the innermost loop and gives the jumps out of it, in the order in which they were
written. -/
def leaveLoop : CompileM (List Chunk.Label) := do
  let aborts := (← get).loops.headD []
  modify fun d => { d with loops := d.loops.tail }
  return aborts.reverse

/-- Notes a jump out of the innermost loop. -/
def noteAbort (label : Chunk.Label) : CompileM Unit :=
  modify fun d =>
    { d with
      loops := match d.loops with
        | [] => []
        | aborts :: outer => (label :: aborts) :: outer }

/-- Compiles the bound of the loop `keyword` and the `TIMES` behind it. -/
def loopBound : CompileM Unit := do
  let start ← peek
  let ty ← expression
  if ty = .number then
    expect (.keyword .times) .times
  else
    fail start.toSite (.countNotNumber ty)

/-- Compiles a `LOOP` whose keyword has been read. -/
def loopStatement (block : CompileM Unit) (keyword : Token) : CompileM Unit := do
  openStatement
  loopBound
  let bound ← takeSlot keyword.toSite
  let counter ← takeSlot keyword.toSite
  emit (.store bound) keyword.line
  emit .pop keyword.line
  emit (.push (.number 0)) keyword.line
  emit (.store counter) keyword.line
  emit .pop keyword.line
  let test := (← get).chunk.size
  emit (.load counter) keyword.line
  emit (.load bound) keyword.line
  emit .less keyword.line
  let exit ← reserve .ifFalse keyword.line
  emit .pop keyword.line
  enterLoop
  block
  let closer ← peek
  expect (.keyword .endLoop) .endLoop
  closeStatement
  emit (.load counter) closer.line
  emit (.push (.number 1)) closer.line
  emit .add closer.line
  emit (.store counter) closer.line
  emit .pop closer.line
  jumpBack keyword.toSite test closer.line
  patch keyword.toSite exit
  emit .pop closer.line
  let aborts ← leaveLoop
  aborts.forM (patch keyword.toSite)

/-- Compiles an `ABORT LOOP`. -/
def abortLoop (token : Token) : CompileM Unit := do
  if (← get).loops.isEmpty then
    fail token.toSite .abortOutsideLoop
  else
    advance
    let label ← reserve .always token.line
    noteAbort label

/-- Compiles the statement that comes next. `block` compiles the blocks inside it, and an `IF` has
at most `bound` branches. -/
def statement (block : CompileM Unit) (bound : Nat) : CompileM Unit := do
  let token ← peek
  match token.kind with
  | .identifier | .keyword .output =>
    advance
    assignment token
  | .keyword .ifWord =>
    advance
    ifStatement block bound token
  | .keyword .loop =>
    advance
    loopStatement block token
  | .keyword .abortLoop => abortLoop token
  | .label => fail token.toSite (.labelAssigned token.text)
  | _ => missing .statement token

/-- Compiles statements up to a keyword that closes the block. There are at most `bound` of them,
and they nest at most so deep. -/
def block : Nat → CompileM Unit
  | 0 => return
  | bound + 1 => do
    let token ← peek
    if token.kind.closesBlock then
      return
    else if token.kind = .eof then
      fail token.toSite .blockNeverClosed
    else
      attempt (statement (block bound) bound)
      block bound

/-- Compiles statements up to the end of the input, at most `bound` of them. -/
def program : Nat → CompileM Unit
  | 0 => return
  | bound + 1 => do
    let token ← peek
    if token.kind = .eof then
      return
    else
      attempt (statement (block bound) bound)
      program bound

end BoundedLoop.CompileM
