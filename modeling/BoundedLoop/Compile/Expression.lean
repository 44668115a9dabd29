import BoundedLoop.Compile.Draft

/-!
# Compiling expressions

An expression is read by climbing binding levels: an operand, then operators that bind at least as
tightly as the level asked for, each with its right operand. Code is written on the way, so the
value of the expression is on top of the stack when its code has run, and the type of that value
is what compiling returns. `and` and `or` jump over their right operand when the left one decides.
-/

namespace BoundedLoop.CompileM

def constant (token : Token) : CompileM Ty :=
  match token.value? with
  | none => fail token.toSite (.noValue token.text)
  | some v => do
    emit (.push v) token.line
    return v.ty

/-- The slot and type of a variable that has been assigned to. -/
def readable? (scope : Scope) (name : String) : Option (UInt8 × Ty) := do
  let v ← scope.find? name
  let ty ← v.ty
  return (v.slot, ty)

def reference (token : Token) : CompileM Ty :=
  match token.variableName? with
  | none => fail token.toSite (.notVariable token.text)
  | some name => do
    match readable? (← get).scope name with
    | none => fail token.toSite (.undefinedVariable name)
    | some (slot, ty) =>
      emit (.load slot) token.line
      return ty

/-- Compiles an operand that begins with `token`, which has been read. `sub` compiles the
expressions inside it. -/
def operand (sub : Level → CompileM Ty) (token : Token) : OperandForm → CompileM Ty
  | .constant => constant token
  | .reference => reference token
  | .grouping => do
    let ty ← sub .or
    expect (.symbol .rightParen) .rightParen
    return ty
  | .negation => do
    let ty ← sub .unary
    if ty = .boolean then
      emit .not token.line
      return .boolean
    else
      fail token.toSite (.operandNotBoolean token.text ty)

/-- Compiles the right operand of `and` and `or`, and judges both operands. -/
def logicalOperand (sub : Level → CompileM Ty) (token : Token) (op : BinaryOp) (left : Ty) :
    CompileM Unit := do
  let right ← sub op.level.tighter
  if left = .boolean ∧ right = .boolean then return
  else fail token.toSite (.operandsNotBooleans token.text left right)

/-- Compiles the right operand of an operator on two numbers, then its instructions. -/
def onNumbers (sub : Level → CompileM Ty) (token : Token) (op : BinaryOp) (left : Ty)
    (code : List Instruction) (ty : Ty) : CompileM Ty := do
  let right ← sub op.level.tighter
  if left = .number ∧ right = .number then
    code.forM (emit · token.line)
    return ty
  else
    fail token.toSite (.operandsNotNumbers token.text left right)

/-- Compiles what follows the left operand of `op`: the operator `token` has been read. -/
def operation (sub : Level → CompileM Ty) (token : Token) (op : BinaryOp) (left : Ty) :
    CompileM Ty :=
  match op with
  | .or => do
    let otherwise ← reserve .ifFalse token.line
    let done ← reserve .always token.line
    patch token.toSite otherwise
    emit .pop token.line
    logicalOperand sub token op left
    patch token.toSite done
    return .boolean
  | .and => do
    let done ← reserve .ifFalse token.line
    emit .pop token.line
    logicalOperand sub token op left
    patch token.toSite done
    return .boolean
  | .equal => do
    let right ← sub op.level.tighter
    if left = right then
      emit .equal token.line
      return .boolean
    else
      fail token.toSite (.incomparable left right)
  | .less => onNumbers sub token op left [.less] .boolean
  | .lessEqual => onNumbers sub token op left [.greater, .not] .boolean
  | .greater => onNumbers sub token op left [.greater] .boolean
  | .greaterEqual => onNumbers sub token op left [.less, .not] .boolean
  | .plus => onNumbers sub token op left [.add] .number
  | .star => onNumbers sub token op left [.multiply] .number

/-- Goes on behind a left operand: at most `bound` operators that bind at least as tightly as
`level`, each with its right operand. -/
def operations (sub : Level → CompileM Ty) (level : Level) : Nat → Ty → CompileM Ty
  | 0, left => return left
  | bound + 1, left => do
    let token ← peek
    match token.kind.binaryOp? with
    | none => return left
    | some op =>
      if level ≤ op.level then
        advance
        let ty ← operation sub token op left
        operations sub level bound ty
      else
        return left

/-- Compiles an expression whose operators bind at least as tightly as `level`. Expressions nest at
most `bound` deep. -/
def climb : Nat → Level → CompileM Ty
  | 0, _ => do missing .expression (← peek)
  | bound + 1, level => do
    let token ← peek
    match token.kind.operandForm? with
    | none => missing .expression token
    | some form =>
      advance
      let left ← operand (climb bound) token form
      operations (climb bound) level bound left

/-- Compiles the expression that comes next. Neither its depth nor its number of operators can
exceed the number of tokens ahead. -/
def expression : CompileM Ty := do
  climb ((← get).ahead.length + 1) .or

end BoundedLoop.CompileM
