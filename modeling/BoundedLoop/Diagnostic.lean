import BoundedLoop.Token
import BoundedLoop.Scope
import BoundedLoop.Bytecode.Chunk

/-!
# Diagnostics

What the compiler can find wrong with a program. A `Problem` is the cause, its `code` the class by
which it is filed, and its `message` the sentence shown; a `Diagnostic` is a problem with its site.
-/

namespace BoundedLoop

/-- The classes of problems. -/
inductive Code where
  | unexpectedEnd
  | expectedAssignmentOperator
  | invalidType
  | unexpectedToken
  | expectedExpression
  | expectedRightParen
  | expectedThen
  | expectedEndIf
  | expectedTimes
  | expectedEndLoop
  | undefinedVariable
  | blockIsTooLarge
  | booleanExpressionNeeded
  | numberExpressionNeeded
  | tooManyVariables
deriving DecidableEq, Inhabited

def Code.name : Code → String
  | unexpectedEnd => "UnexpectedEOF"
  | expectedAssignmentOperator => "ExpectedAssignmentOperator"
  | invalidType => "InvalidType"
  | unexpectedToken => "UnexpectedToken"
  | expectedExpression => "ExpectedExpression"
  | expectedRightParen => "ExpectedRightParen"
  | expectedThen => "ExpectedThen"
  | expectedEndIf => "ExpectedEndIf"
  | expectedTimes => "ExpectedTimes"
  | expectedEndLoop => "ExpectedEndLoop"
  | undefinedVariable => "UndefinedVariable"
  | blockIsTooLarge => "BlockIsTooLarge"
  | booleanExpressionNeeded => "BooleanExpressionNeeded"
  | numberExpressionNeeded => "NumberExpressionNeeded"
  | tooManyVariables => "TooManyVariables"

/-- What the grammar asks for at some place. -/
inductive Expectation where
  | statement
  | expression
  /-- behind the target of an assignment -/
  | arrow (name : String)
  | rightParen
  | thenWord
  | endIf
  | times
  | endLoop
deriving DecidableEq

namespace Expectation

/-- The class of a token that is not the expected one. -/
def code : Expectation → Code
  | statement => .unexpectedToken
  | expression => .expectedExpression
  | arrow _ => .expectedAssignmentOperator
  | rightParen => .expectedRightParen
  | thenWord => .expectedThen
  | endIf => .expectedEndIf
  | times => .expectedTimes
  | endLoop => .expectedEndLoop

def text : Expectation → String
  | statement => "expected a statement"
  | expression => "expected an expression"
  | arrow name => "expected '<-' after '" ++ name ++ "'"
  | rightParen => "expected ')' after expression"
  | thenWord => "expected THEN after condition"
  | endIf => "expected END IF to close IF"
  | times => "expected TIMES after iteration count"
  | endLoop => "expected END LOOP to close LOOP"

end Expectation

/-- Everything that can be wrong with a program. Tokens are quoted by their text. -/
inductive Problem where
  /-- something else than expected was found; `none` is the end of the input -/
  | missing (wanted : Expectation) (found : Option String)
  | blockNeverClosed
  | abortOutsideLoop
  | labelAssigned (token : String)
  | notAssignable (token : String)
  | noValue (token : String)
  | notVariable (token : String)
  | undefinedVariable (name : String)
  | typeConflict (conflict : TypeConflict) (name : String)
  | conditionNotBoolean (keyword : String) (found : Ty)
  | countNotNumber (found : Ty)
  | operandNotBoolean (operator : String) (found : Ty)
  | incomparable (left right : Ty)
  | operandsNotNumbers (operator : String) (left right : Ty)
  | operandsNotBooleans (operator : String) (left right : Ty)
  | blockTooLarge (jump : JumpTooFar)
  | loopTooLarge (jump : JumpTooFar)
  | tooManyVariables
deriving DecidableEq

namespace Problem

def code : Problem → Code
  | missing _ none | blockNeverClosed => .unexpectedEnd
  | missing wanted (some _) => wanted.code
  | abortOutsideLoop | labelAssigned _ | notAssignable _ | noValue _ | notVariable _ =>
    .unexpectedToken
  | undefinedVariable _ => .undefinedVariable
  | typeConflict .. | operandNotBoolean .. | incomparable .. | operandsNotNumbers ..
  | operandsNotBooleans .. => .invalidType
  | conditionNotBoolean .. => .booleanExpressionNeeded
  | countNotNumber _ => .numberExpressionNeeded
  | blockTooLarge _ | loopTooLarge _ => .blockIsTooLarge
  | tooManyVariables => .tooManyVariables

/-- The clause about two operands of the wrong types. -/
def operandTypes (left right : Ty) : String :=
  "found '" ++ left.name ++ "' and '" ++ right.name ++ "'"

def message : Problem → String
  | missing wanted none => wanted.text ++ ", found end of input"
  | missing wanted (some found) => wanted.text ++ ", found '" ++ found ++ "'"
  | blockNeverClosed => "block is never closed"
  | abortOutsideLoop => "ABORT LOOP outside of a loop"
  | labelAssigned token => "procedure label " ++ token ++ " cannot be assigned to"
  | notAssignable token => "'" ++ token ++ "' cannot be assigned to"
  | noValue token => "'" ++ token ++ "' carries no value"
  | notVariable token => "'" ++ token ++ "' is not a variable"
  | undefinedVariable name =>
    "undefined variable '" ++ name ++ "', assign it first with '" ++ name ++ " <- ...'"
  | typeConflict conflict name => conflict.message ++ " for '" ++ name ++ "'"
  | conditionNotBoolean keyword found =>
    "condition of " ++ keyword ++ " must be boolean, found '" ++ found.name ++ "'"
  | countNotNumber found =>
    "iteration count of LOOP must be a number, found '" ++ found.name ++ "'"
  | operandNotBoolean operator found =>
    "'" ++ operator ++ "' expects a boolean operand, found '" ++ found.name ++ "'"
  | incomparable left right => "cannot compare '" ++ left.name ++ "' with '" ++ right.name ++ "'"
  | operandsNotNumbers operator left right =>
    "'" ++ operator ++ "' expects number operands, " ++ operandTypes left right
  | operandsNotBooleans operator left right =>
    "'" ++ operator ++ "' expects boolean operands, " ++ operandTypes left right
  | blockTooLarge jump => "block is too large to jump over (" ++ jump.message ++ ")"
  | loopTooLarge jump => "loop body is too large to jump back over (" ++ jump.message ++ ")"
  | tooManyVariables =>
    "more than " ++ toString Chunk.maxSlots ++ " variables in one program"

end Problem

structure Diagnostic extends Site where
  problem : Problem
deriving DecidableEq

namespace Diagnostic

def code (d : Diagnostic) : Code := d.problem.code

/-- The diagnostic on one line: place, class and message. -/
def text (d : Diagnostic) : String :=
  "line " ++ toString d.line ++ " column " ++ toString d.column ++ ": [" ++ d.code.name ++ "] " ++
    d.problem.message

end Diagnostic

end BoundedLoop
