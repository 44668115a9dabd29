import BoundedLoop.Token

/-!
# Operators and how tightly they bind

Expressions are read by binding level. `Token.Kind.operandForm?` says which kinds begin an operand,
and `Token.Kind.binaryOp?` which ones join two; the right operand of an operator is read one level
tighter than the operator itself, so operators of one level group to the left.
-/

namespace BoundedLoop

/-- Binding levels, loosest first. -/
inductive Level where
  /-- of what is no operator -/
  | unbound
  | or
  | and
  | equality
  | comparison
  | term
  | factor
  | unary
  | primary
deriving DecidableEq, Inhabited

namespace Level

def all : List Level :=
  [unbound, or, and, equality, comparison, term, factor, unary, primary]

/-- The position of a level among all levels. -/
def rank : Level → Nat
  | unbound => 0
  | or => 1
  | and => 2
  | equality => 3
  | comparison => 4
  | term => 5
  | factor => 6
  | unary => 7
  | primary => 8

instance : LE Level := ⟨fun a b => a.rank ≤ b.rank⟩

instance : LT Level := ⟨fun a b => a.rank < b.rank⟩

instance (a b : Level) : Decidable (a ≤ b) := inferInstanceAs (Decidable (a.rank ≤ b.rank))

instance (a b : Level) : Decidable (a < b) := inferInstanceAs (Decidable (a.rank < b.rank))

/-- The level just above, if there is one. -/
def tighter : Level → Level
  | unbound => or
  | or => and
  | and => equality
  | equality => comparison
  | comparison => term
  | term => factor
  | factor => unary
  | unary => primary
  | primary => primary

theorem rank_tighter (l : Level) : l.tighter.rank = min (l.rank + 1) primary.rank := by
  cases l <;> rfl

end Level

inductive BinaryOp where
  | or
  | and
  | equal
  | less
  | lessEqual
  | greater
  | greaterEqual
  | plus
  | star
deriving DecidableEq, Inhabited

def BinaryOp.level : BinaryOp → Level
  | or => .or
  | and => .and
  | equal => .equality
  | less | lessEqual | greater | greaterEqual => .comparison
  | plus => .term
  | star => .factor

/-- The ways in which an operand begins. -/
inductive OperandForm where
  | constant
  | reference
  | grouping
  | negation
deriving DecidableEq, Inhabited

namespace Token.Kind

/-- The form of the operand that this kind begins. A label is read as a variable, and refused as
one. -/
def operandForm? : Kind → Option OperandForm
  | .constant => some .constant
  | .identifier | .keyword .output | .label => some .reference
  | .symbol .leftParen => some .grouping
  | .keyword .not => some .negation
  | _ => none

def binaryOp? : Kind → Option BinaryOp
  | .keyword .or => some .or
  | .keyword .and => some .and
  | .symbol .equal => some .equal
  | .symbol .less => some .less
  | .symbol .lessEqual => some .lessEqual
  | .symbol .greater => some .greater
  | .symbol .greaterEqual => some .greaterEqual
  | .symbol .plus => some .plus
  | .symbol .star => some .star
  | _ => none

/-- The binding level of a kind as an operator. -/
def level (k : Kind) : Level :=
  (k.binaryOp?.map BinaryOp.level).getD .unbound

end Token.Kind

end BoundedLoop
