import BoundedLoop.Token

/-!
# Scanning

`scan` turns a text into tokens. Words are looked up without regard to case; `DEFINE`, `END`,
`QUIT` and `ABORT` are only the first halves of keywords and take the word after them along. The
leftmost problem ends the scan.
-/

namespace BoundedLoop

/-- The first words of the keywords that are written as two. -/
inductive Stem where
  | define
  | finish
  | quit
  | abort
deriving DecidableEq, Inhabited

namespace Stem

def name : Stem → String
  | define => "DEFINE"
  | finish => "END"
  | quit => "QUIT"
  | abort => "ABORT"

/-- The words that complete a keyword, as messages list them. -/
def expected : Stem → String
  | define | quit => "PROCEDURE"
  | finish => "IF, LOOP or PROCEDURE"
  | abort => "LOOP"

/-- The keyword that a lower-case word completes. -/
def complete? (stem : Stem) (word : String) : Option Keyword :=
  match stem with
  | define => if word = "procedure" then some .defineProcedure else none
  | finish =>
    if word = "if" then some .endIf
    else if word = "loop" then some .endLoop
    else if word = "procedure" then some .endProcedure
    else none
  | quit => if word = "procedure" then some .quitProcedure else none
  | abort => if word = "loop" then some .abortLoop else none

end Stem

/-- What a word means. -/
inductive Word where
  | keyword (k : Keyword)
  | boolean (b : Bool)
  | stem (s : Stem)
  | name
deriving DecidableEq

namespace Word

/-- The reserved words, in lower case. -/
def reserved : List (String × Word) :=
  [("if", keyword .ifWord), ("then", keyword .thenWord), ("else", keyword .elseWord),
    ("loop", keyword .loop), ("times", keyword .times), ("not", keyword .not),
    ("and", keyword .and), ("or", keyword .or), ("output", keyword .output),
    ("yes", boolean true), ("no", boolean false), ("define", stem .define),
    ("end", stem .finish), ("quit", stem .quit), ("abort", stem .abort)]

/-- The meaning of a lower-case word. -/
def ofLower (word : String) : Word :=
  (reserved.lookup word).getD name

end Word

namespace Lexeme

/-- The text of a word in lower case. Words hold ASCII characters only. -/
def lower (l : Lexeme) : String :=
  String.ofList (l.chars.map Char.toLower)

/-- The text of a word in upper case. -/
def upper (l : Lexeme) : String :=
  String.ofList (l.chars.map Char.toUpper)

/-- The token of one lexeme whose text is kept. -/
def token (l : Lexeme) (kind : Token.Kind) (literal : Option Token.Literal) : Token :=
  { toSite := l.site, kind, lexeme := l.text, literal }

/-- The token of one reserved word. -/
def reservedToken (l : Lexeme) (kind : Token.Kind) (literal : Option Token.Literal) : Token :=
  { toSite := l.site, kind, lexeme := l.upper, literal }

/-- The token of a stem and the word that completes it. -/
def pairToken (first : Lexeme) (stem : Stem) (second : Lexeme) (k : Keyword) : Token :=
  { span := ⟨first.site.span.start, second.site.span.stop⟩
    line := first.place.line
    column := first.place.column
    kind := .keyword k
    lexeme := stem.name ++ " " ++ second.upper }

end Lexeme

/-- Why a text cannot be scanned. -/
inductive ScanProblem where
  | flaw (f : Lexeme.Flaw)
  | incompleteKeyword (stem : Stem)
deriving DecidableEq

def ScanProblem.message : ScanProblem → String
  | flaw f => f.message
  | incompleteKeyword stem => "expected " ++ stem.expected ++ " after '" ++ stem.name ++ "'"

structure ScanError extends Site where
  problem : ScanProblem
deriving DecidableEq

def ScanError.message (e : ScanError) : String :=
  "line " ++ toString e.line ++ " column " ++ toString e.column ++ ": " ++ e.problem.message

namespace Token

/-- The end of a text, which ends at `p`. -/
def endOf (p : Text.Place) : Token :=
  { toSite := p.site [], kind := .eof, lexeme := "" }

/-- The keyword that a stem makes with the lexeme behind it. -/
def completion? (stem : Stem) (next : Lexeme) : Option Keyword :=
  match next.reading with
  | .ok .word => stem.complete? next.lower
  | _ => none

/-- The tokens of a sequence of lexemes, closed by the token `last`. -/
def ofLexemes (last : Token) : List Lexeme → Except ScanError (List Token)
  | [] => .ok [last]
  | l :: rest =>
    match l.reading with
    | .error f => .error ⟨l.site, .flaw f⟩
    | .ok (.symbol s) => (l.token (.symbol s) none :: ·) <$> ofLexemes last rest
    | .ok (.number n) =>
      (l.token .constant (some (.value (.number n))) :: ·) <$> ofLexemes last rest
    | .ok (.quoted content) =>
      (l.token .label (some (.label content)) :: ·) <$> ofLexemes last rest
    | .ok .word =>
      match Word.ofLower l.lower with
      | .name => (l.token .identifier (some (.name l.text)) :: ·) <$> ofLexemes last rest
      | .keyword k => (l.reservedToken (.keyword k) none :: ·) <$> ofLexemes last rest
      | .boolean b =>
        (l.reservedToken .constant (some (.value (.boolean b))) :: ·) <$> ofLexemes last rest
      | .stem stem =>
        match rest with
        | [] => .error ⟨l.site, .incompleteKeyword stem⟩
        | next :: rest =>
          match completion? stem next with
          | none => .error ⟨l.site, .incompleteKeyword stem⟩
          | some k => (l.pairToken stem next k :: ·) <$> ofLexemes last rest

/-- The tokens of a text, the last of them its end. -/
def scan (source : String) : Except ScanError (List Token) :=
  let chars := source.toList
  ofLexemes (endOf (Text.Place.after {} chars)) (Lexeme.allFrom {} chars)

end Token

end BoundedLoop
