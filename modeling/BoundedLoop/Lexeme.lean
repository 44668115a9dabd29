import BoundedLoop.Value
import BoundedLoop.Text.Decimal
import BoundedLoop.Text.Place

/-!
# Lexemes

A text is cut from left to right into lexemes and the separators between them. A lexeme is the
longest possible one at its place: a symbol, a run of digits, a word (which may end in a question
mark), or a quoted text. A character that begins none is a lexeme of its own with a flaw, and so
is all that follows a quote that is never closed; the cutting then goes on.

`cut_append`: cutting loses no character.
-/

namespace BoundedLoop

inductive Symbol where
  | plus
  | star
  | equal
  | less
  | lessEqual
  | greater
  | greaterEqual
  | leftArrow
  | leftParen
  | rightParen
  | leftBracket
  | rightBracket
  | comma
deriving DecidableEq, Inhabited

namespace Lexeme

/-- What a lexeme is, as far as its own characters tell. -/
inductive Shape where
  | symbol (s : Symbol)
  | number (n : Int64)
  | word
  /-- carries the text between the quotes -/
  | quoted (content : String)
deriving DecidableEq

/-- What can be wrong with a lexeme by itself. -/
inductive Flaw where
  | invalid
  | numberTooBig
deriving DecidableEq

def Flaw.message : Flaw → String
  | invalid => "invalid token encountered"
  | numberTooBig => "number literal too big"

/-- The characters that may stand between lexemes: blank, tab, carriage return, line feed, form
feed. -/
def isSeparator (c : Char) : Bool :=
  c == ' ' || c == '\t' || c == '\r' || c == '\n' || c == '\x0c'

def startsWord (c : Char) : Bool :=
  c.isAlpha || c == '_'

def continuesWord (c : Char) : Bool :=
  c.isAlphanum || c == '_'

/-- A lexeme is cut off behind its first character: `more` belongs to it, `rest` comes after it. -/
structure Cut where
  reading : Except Flaw Shape
  more : List Char
  rest : List Char

def cutNumber (c : Char) (cs : List Char) : Cut :=
  let more := cs.takeWhile Char.isDigit
  let reading := match exact64? (Text.decimal (c :: more)) with
    | some n => .ok (.number n)
    | none => .error .numberTooBig
  ⟨reading, more, cs.dropWhile Char.isDigit⟩

def cutWord (cs : List Char) : Cut :=
  let more := cs.takeWhile continuesWord
  match cs.dropWhile continuesWord with
  | '?' :: rest => ⟨.ok .word, more ++ ['?'], rest⟩
  | rest => ⟨.ok .word, more, rest⟩

def cutQuoted (cs : List Char) : Cut :=
  let content := cs.takeWhile (· != '"')
  match cs.dropWhile (· != '"') with
  | quote :: rest => ⟨.ok (.quoted (String.ofList content)), content ++ [quote], rest⟩
  | [] => ⟨.error .invalid, cs, []⟩

def cutSymbol (s : Symbol) (cs : List Char) : Cut :=
  ⟨.ok (.symbol s), [], cs⟩

/-- Cuts off the lexeme that begins with `c`, which is no separator. -/
def cut (c : Char) (cs : List Char) : Cut :=
  match c, cs with
  | '<', '=' :: cs => ⟨.ok (.symbol .lessEqual), ['='], cs⟩
  | '<', '-' :: cs => ⟨.ok (.symbol .leftArrow), ['-'], cs⟩
  | '>', '=' :: cs => ⟨.ok (.symbol .greaterEqual), ['='], cs⟩
  | '+', cs => cutSymbol .plus cs
  | '*', cs => cutSymbol .star cs
  | '=', cs => cutSymbol .equal cs
  | '<', cs => cutSymbol .less cs
  | '>', cs => cutSymbol .greater cs
  | '(', cs => cutSymbol .leftParen cs
  | ')', cs => cutSymbol .rightParen cs
  | '[', cs => cutSymbol .leftBracket cs
  | ']', cs => cutSymbol .rightBracket cs
  | ',', cs => cutSymbol .comma cs
  | '"', cs => cutQuoted cs
  | c, cs =>
    if c.isDigit then cutNumber c cs
    else if startsWord c then cutWord cs
    else ⟨.error .invalid, [], cs⟩

theorem cutNumber_append (c : Char) (cs : List Char) :
    (cutNumber c cs).more ++ (cutNumber c cs).rest = cs :=
  List.takeWhile_append_dropWhile

theorem cutWord_append (cs : List Char) : (cutWord cs).more ++ (cutWord cs).rest = cs := by
  have h := List.takeWhile_append_dropWhile (p := continuesWord) (l := cs)
  unfold cutWord
  split
  · rename_i rest heq
    rw [heq] at h
    simpa using h
  · exact h

theorem cutQuoted_append (cs : List Char) : (cutQuoted cs).more ++ (cutQuoted cs).rest = cs := by
  have h := List.takeWhile_append_dropWhile (p := (· != '"')) (l := cs)
  unfold cutQuoted
  split
  · rename_i quote rest heq
    rw [heq] at h
    simpa using h
  · simp

theorem cut_append (c : Char) (cs : List Char) : (cut c cs).more ++ (cut c cs).rest = cs := by
  unfold cut
  split <;> try rfl
  · exact cutQuoted_append _
  · split
    · exact cutNumber_append _ _
    · split
      · exact cutWord_append _
      · rfl

theorem length_rest_cut_le (c : Char) (cs : List Char) : (cut c cs).rest.length ≤ cs.length := by
  have h := congrArg List.length (cut_append c cs)
  simp only [List.length_append] at h
  omega

end Lexeme

/-- A piece of text between separators, with the place where it begins. -/
structure Lexeme where
  reading : Except Lexeme.Flaw Lexeme.Shape
  chars : List Char
  place : Text.Place

namespace Lexeme

def site (l : Lexeme) : Site :=
  l.place.site l.chars

def text (l : Lexeme) : String :=
  String.ofList l.chars

/-- The lexemes of the text `cs`, which begins at `p`. -/
def allFrom (p : Text.Place) : List Char → List Lexeme
  | [] => []
  | c :: cs =>
    if isSeparator c then allFrom (p.advance c) cs
    else
      let found := cut c cs
      ⟨found.reading, c :: found.more, p⟩ :: allFrom (p.after (c :: found.more)) found.rest
termination_by cs => cs.length
decreasing_by
  · exact Nat.lt_succ_self _
  · exact Nat.lt_succ_of_le (length_rest_cut_le c cs)

/-- The lexemes of a text. -/
def all (source : String) : List Lexeme :=
  allFrom {} source.toList

end Lexeme

end BoundedLoop
