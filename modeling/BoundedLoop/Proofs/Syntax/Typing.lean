import BoundedLoop.Proofs.Codegen.Layout

/-!
# Types of programs

`Statement.check` follows a program in the order of its text and collects the types of its variables:
a variable has a type from its first completed assignment on, and keeps it.
-/

namespace BoundedLoop

/-- The type of an operation, if its operands have the types that it asks for. -/
def BinaryOp.result? : BinaryOp → Ty → Ty → Option Ty
  | or, .boolean, .boolean | and, .boolean, .boolean => some .boolean
  | equal, left, right => if left = right then some .boolean else none
  | less, .number, .number | lessEqual, .number, .number | greater, .number, .number
  | greaterEqual, .number, .number => some .boolean
  | plus, .number, .number | star, .number, .number => some .number
  | _, _, _ => none

theorem BinaryOp.result?_or (left right : Ty) :
    or.result? left right =
      if left = .boolean ∧ right = .boolean then some .boolean else none := by
  cases left <;> cases right <;> rfl

theorem BinaryOp.result?_and (left right : Ty) :
    and.result? left right =
      if left = .boolean ∧ right = .boolean then some .boolean else none := by
  cases left <;> cases right <;> rfl

/-- The type of an expression, given the types of the variables that can be read. -/
def Expression.type? (types : Types) : Expression → Option Ty
  | constant _ v => some v.ty
  | reference _ name => types name
  | group _ e _ => e.type? types
  | negation _ e => do
    let ty ← e.type? types
    if ty = .boolean then some .boolean else none
  | binary l _ op r => do
    let left ← l.type? types
    let right ← r.type? types
    op.result? left right

/-- The types behind a completed assignment of a value of type `ty`. -/
def Types.assign? (types : Types) (name : String) (ty : Ty) : Option Types :=
  match types name with
  | none => some (Function.update types name (some ty))
  | some expected => if expected = ty then some types else none

mutual

/-- The types behind a statement, if all is well typed up to there. -/
def Statement.check (types : Types) : Statement → Option Types
  | .assign _ name _ value => do
    let ty ← value.type? types
    types.assign? name ty
  | .choice arms _ => arms.check types
  | .loop _ count _ body _ => do
    let ty ← count.type? types
    if ty = .number then Block.check types body else none
  | .abort _ => some types

def Arms.check (types : Types) : Arms → Option Types
  | .last _ condition _ body _ alternative => do
    let ty ← condition.type? types
    if ty = .boolean then
      let types ← Block.check types body
      Block.check types alternative
    else none
  | .elseIf _ condition _ body _ rest => do
    let ty ← condition.type? types
    if ty = .boolean then
      let types ← Block.check types body
      rest.check types
    else none

def Block.check (types : Types) : List Statement → Option Types
  | [] => some types
  | s :: ss => do
    let types ← s.check types
    Block.check types ss

end

/-- The types behind an arm: its condition is a truth value. -/
def Arms.armCheck (types : Types) (condition : Expression) (body : List Statement) : Option Types :=
  if condition.type? types = some .boolean then Block.check types body else none

theorem Arms.check_last (types : Types) (keyword : Token) (condition : Expression)
    (thenWord : Token) (body : List Statement) (elseWord : Option Token)
    (alternative : List Statement) :
    (Arms.last keyword condition thenWord body elseWord alternative).check types =
      (armCheck types condition body).bind fun types => Block.check types alternative := by
  simp only [check, armCheck, Option.bind_eq_bind]
  cases condition.type? types with
  | none => rfl
  | some ty => cases ty <;> rfl

theorem Arms.check_elseIf (types : Types) (keyword : Token) (condition : Expression)
    (thenWord : Token) (body : List Statement) (elseWord : Token) (rest : Arms) :
    (Arms.elseIf keyword condition thenWord body elseWord rest).check types =
      (armCheck types condition body).bind fun types => rest.check types := by
  simp only [check, armCheck, Option.bind_eq_bind]
  cases condition.type? types with
  | none => rfl
  | some ty => cases ty <;> rfl

theorem Statement.check_loop (types : Types) (keyword : Token) (count : Expression)
    (times : Token) (body : List Statement) (closer : Token) :
    (Statement.loop keyword count times body closer).check types =
      if count.type? types = some .number then Block.check types body else none := by
  simp only [check, Option.bind_eq_bind]
  cases count.type? types with
  | none => rfl
  | some ty => cases ty <;> rfl

end BoundedLoop
