import BoundedLoop.Lexeme

/-!
# Tokens

A token is what the compiler reads: its kind, the text that messages quote, what it stands for,
and its site in the source. The last token of a program is of kind `eof`.
-/

namespace BoundedLoop

inductive Keyword where
  | not
  | and
  | or
  | defineProcedure
  | endProcedure
  | quitProcedure
  | ifWord
  | thenWord
  | elseWord
  | endIf
  | loop
  | abortLoop
  | endLoop
  | times
  | output
deriving DecidableEq, Inhabited

namespace Token

inductive Kind where
  | symbol (s : Symbol)
  | keyword (k : Keyword)
  | identifier
  /-- a quoted procedure name, never a variable -/
  | label
  | constant
  | eof
deriving DecidableEq, Inhabited

/-- What a token stands for. -/
inductive Literal where
  | value (v : Value)
  | name (name : String)
  | label (label : String)
deriving DecidableEq

/-- Whether a block of statements ends in front of this kind. -/
def Kind.closesBlock : Kind → Bool
  | .keyword .elseWord | .keyword .endIf | .keyword .endLoop | .keyword .endProcedure => true
  | _ => false

end Token

structure Token extends Site where
  kind : Token.Kind
  /-- the source text, except that keywords are upper-cased and single-spaced -/
  lexeme : String
  literal : Option Token.Literal := none
deriving DecidableEq

namespace Token

/-- The name that an identifier carries. -/
def name? (t : Token) : Option String :=
  match t.literal with
  | some (.name name) => some name
  | _ => none

/-- The content of a label. -/
def label? (t : Token) : Option String :=
  match t.literal with
  | some (.label label) => some label
  | _ => none

/-- The value that a constant carries. -/
def value? (t : Token) : Option Value :=
  match t.literal with
  | some (.value v) => some v
  | _ => none

/-- The token as messages show it. -/
def text (t : Token) : String :=
  if t.kind = .eof then "end of input" else t.lexeme

/-- The name of the variable that holds the result of a program. -/
def outputName : String := "OUTPUT"

/-- The variable that the token names: `OUTPUT` is a keyword and carries no name of its own. -/
def variableName? (t : Token) : Option String :=
  if t.kind = .keyword .output then some outputName else t.name?

end Token

end BoundedLoop
