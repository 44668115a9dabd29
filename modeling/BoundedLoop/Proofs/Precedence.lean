import BoundedLoop.Proofs.Verdicts.Expression

/-!
# Printed expressions are read back

`Prints` says which token sequences write an expression down: parentheses stand at least where an
operator binds too loosely for its place, and may stand around any operand, as often as one likes.
`Expression.print` uses as few of them as possible (`length_print_le`). How tightly an operator binds is
given by a number here (`BinaryOp.precedence`), and that operators of one number group to the left by
asking for a greater number on the right.

Whichever way an expression is written down, compiling reads all of it and nothing more, and comes to
the type and the code of the expression (`expression_of_prints`).
-/

namespace BoundedLoop

/-- How tightly an operator binds. -/
def BinaryOp.precedence : BinaryOp → Nat
  | or => 0
  | and => 1
  | equal => 2
  | less | lessEqual | greater | greaterEqual => 3
  | plus => 4
  | star => 5

/-- How tightly `not` binds. -/
def notPrecedence : Nat := 6

/-- The tokens write `e` down in a place for what binds at least as tightly as `least`. The expression
itself has no parentheses: they are a matter of writing. -/
inductive Prints : Nat → Expression → List Token → Prop where
  | constant {least : Nat} {t : Token} {v : Value} (hkind : t.kind = .constant)
      (hvalue : t.value? = some v) : Prints least (.constant t v) [t]
  | reference {least : Nat} {t : Token} {name : String} (hreads : t.Reads name) :
      Prints least (.reference t name) [t]
  | negation {least : Nat} {t : Token} {e : Expression} {ts : List Token}
      (hkind : t.kind = .keyword .not) (he : Prints notPrecedence e ts) :
      Prints least (.negation t e) (t :: ts)
  | binary {least : Nat} {l r : Expression} {t : Token} {op : BinaryOp} {ls rs : List Token}
      (hop : t.kind.binaryOp? = some op) (hleast : least ≤ op.precedence)
      (hl : Prints op.precedence l ls) (hr : Prints (op.precedence + 1) r rs) :
      Prints least (.binary l t op r) (ls ++ t :: rs)
  | parens {least : Nat} {opening closing : Token} {e : Expression} {ts : List Token}
      (hopening : opening.kind = .symbol .leftParen) (hclosing : closing.kind = .symbol .rightParen)
      (he : Prints 0 e ts) : Prints least e (opening :: ts ++ [closing])

/-! ### Printing with few parentheses -/

/-- The tokens of an expression are of the right kinds, and it has no parentheses of its own. -/
def Expression.Spelled : Expression → Prop
  | constant t v => t.kind = .constant ∧ t.value? = some v
  | reference t name => t.Reads name
  | group _ _ _ => False
  | negation t e => t.kind = .keyword .not ∧ e.Spelled
  | binary l t op r => t.kind.binaryOp? = some op ∧ l.Spelled ∧ r.Spelled

/-- Writes an expression down with parentheses only where an operator binds too loosely. -/
def Expression.print (opening closing : Token) (least : Nat) : Expression → List Token
  | constant t _ | reference t _ => [t]
  | group _ e _ => e.print opening closing least
  | negation t e => t :: e.print opening closing notPrecedence
  | binary l t op r =>
    let inner := l.print opening closing op.precedence ++
      t :: r.print opening closing (op.precedence + 1)
    if least ≤ op.precedence then inner else opening :: inner ++ [closing]

section Print

variable {opening closing : Token} {e : Expression}

theorem prints_print (hopening : opening.kind = .symbol .leftParen)
    (hclosing : closing.kind = .symbol .rightParen) (h : e.Spelled) (least : Nat) :
    Prints least e (e.print opening closing least) := by
  induction e generalizing least with
  | constant t v => exact .constant h.1 h.2
  | reference t name => exact .reference h
  | group => exact h.elim
  | negation t e ih => exact .negation h.1 (ih h.2 notPrecedence)
  | binary l t op r ihl ihr =>
    have hinner : ∀ least, least ≤ op.precedence → Prints least (.binary l t op r)
        (l.print opening closing op.precedence ++ t :: r.print opening closing (op.precedence + 1)) :=
      fun least hle => .binary h.1 hle (ihl h.2.1 _) (ihr h.2.2 _)
    simp only [Expression.print]
    split
    · rename_i hle
      exact hinner least hle
    · exact .parens hopening hclosing (hinner 0 (Nat.zero_le _))

/-- A place for something tighter costs two parentheses at most. -/
theorem length_print_le_add_two (least : Nat) :
    (e.print opening closing least).length ≤ (e.print opening closing 0).length + 2 := by
  induction e with
  | constant | reference => exact Nat.le_add_right 1 2
  | group _ _ _ ih => exact ih
  | negation => exact Nat.le_add_right _ 2
  | binary l t op r =>
    simp only [Expression.print, if_pos (Nat.zero_le op.precedence)]
    split
    · exact Nat.le_add_right _ 2
    · simp only [List.length_append, List.length_cons, List.length_nil]
      omega

/-- No way to write an expression down is shorter than its print. -/
theorem length_print_le {least : Nat} {ts : List Token} (h : Prints least e ts) :
    (e.print opening closing least).length ≤ ts.length := by
  induction h with
  | constant | reference => exact Nat.le_refl 1
  | negation _ _ ih => exact Nat.succ_le_succ ih
  | binary _ hleast _ _ ihl ihr =>
    simp only [Expression.print, if_pos hleast, List.length_append, List.length_cons]
    omega
  | parens _ _ _ ih =>
    refine Nat.le_trans (length_print_le_add_two _) ?_
    simpa using ih

end Print

/-! ### What is printed is a tree of the grammar -/

theorem BinaryOp.rank_level (op : BinaryOp) : op.level.rank = op.precedence + 1 := by
  cases op <;> rfl

theorem BinaryOp.rank_tighter_level (op : BinaryOp) : op.level.tighter.rank = op.precedence + 2 := by
  cases op <;> rfl

/-- What is written down is a tree of the grammar, which differs from the expression in parentheses
only: it has the same code and the same type. -/
theorem Prints.exists_grammatical {least : Nat} {e : Expression} {ts : List Token}
    (h : Prints least e ts) :
    ∃ tree : Expression, tree.tokens = ts ∧
      (∀ level : Level, level.rank ≤ least + 1 → tree.Grammatical level) ∧
      (∀ slot, tree.code slot = e.code slot) ∧ ∀ types, tree.type? types = e.type? types := by
  induction h with
  | @constant least t v hkind hvalue =>
    exact ⟨.constant t v, rfl, fun _ _ => ⟨hkind, hvalue⟩, fun _ => rfl, fun _ => rfl⟩
  | @reference least t name hreads =>
    exact ⟨.reference t name, rfl, fun _ _ => hreads, fun _ => rfl, fun _ => rfl⟩
  | @negation least t e ts hkind _ ih =>
    obtain ⟨tree, rfl, hgram, hcode, htype⟩ := ih
    refine ⟨.negation t tree, rfl, fun _ _ => ⟨hkind, hgram .unary (Nat.le_refl 7)⟩, fun slot => ?_,
      fun types => ?_⟩
    · rw [Expression.code, Expression.code, hcode]
    · rw [Expression.type?, Expression.type?, htype]
  | @binary least l r t op ls rs hop hleast _ _ ihl ihr =>
    obtain ⟨left, rfl, hleft, hlcode, hltype⟩ := ihl
    obtain ⟨right, rfl, hright, hrcode, hrtype⟩ := ihr
    refine ⟨.binary left t op right, rfl, fun level hlevel => ⟨hop, ?_, ?_, ?_⟩, fun slot => ?_,
      fun types => ?_⟩
    · show level.rank ≤ op.level.rank
      rw [op.rank_level]
      omega
    · exact hleft op.level (Nat.le_of_eq op.rank_level)
    · exact hright op.level.tighter (Nat.le_of_eq op.rank_tighter_level)
    · rw [Expression.code, Expression.code, hlcode, hrcode]
    · rw [Expression.type?, Expression.type?, hltype, hrtype]
  | @parens least opening closing e ts hopening hclosing _ ih =>
    obtain ⟨tree, rfl, hgram, hcode, htype⟩ := ih
    exact ⟨.group opening tree closing, rfl,
      fun _ _ => ⟨hopening, hgram .or (Nat.le_refl 1), hclosing⟩, hcode, htype⟩

/-- Whichever way a well-typed expression is written down, in front of a token that is no operator it
is compiled as a whole: to its type and its code. -/
theorem expression_of_prints {d : Draft} {e : Expression} {ty : Ty} (hspelled : e.Spelled)
    (hfinish : d.finish.kind = .eof) (hty : e.type? d.types = some ty)
    (hfits : (e.code d.slot).Fits) :
    (∀ opening closing : Token, opening.kind = .symbol .leftParen →
      closing.kind = .symbol .rightParen → Prints 0 e (e.print opening closing 0) ∧
        ∀ ts, Prints 0 e ts → (e.print opening closing 0).length ≤ ts.length) ∧
    ∀ ts rest, Prints 0 e ts → NoOperator rest → d.ahead = ts ++ rest →
      CompileM.expression d =
        .ok ty { d with ahead := rest, chunk := d.chunk.append (e.code d.slot) } := by
  refine ⟨fun opening closing hopening hclosing =>
    ⟨prints_print hopening hclosing hspelled 0, fun ts => length_print_le⟩, ?_⟩
  intro ts rest hprints hrest hahead
  obtain ⟨tree, rfl, hgram, hcode, htype⟩ := hprints.exists_grammatical
  have hread : Read.expression d.ahead = some (tree, rest) := by
    rw [hahead]
    exact Read.expression_complete (hgram .or (Nat.le_refl 1)) hrest
  have hrun := CompileM.expression_of_type? hfinish hread (by rw [hcode]; exact hfits)
    ((htype d.types).trans hty)
  rwa [CompileM.behind, hcode] at hrun

namespace Sample

/-- A token on the first line. -/
def word (kind : Token.Kind) (lexeme : String) (literal : Option Token.Literal := none) : Token :=
  { span := ⟨0, 0⟩, line := 1, column := 1, kind, lexeme, literal }

def number (n : Int64) : Expression :=
  .constant (word .constant (toString n.toInt) (some (.value (.number n)))) (.number n)

def variableX : Expression := .reference (word .identifier "x" (some (.name "x"))) "x"

/-- Written with as few parentheses as possible, this is `not ((x + 1) * 2 <= x)`. -/
def negated : Expression :=
  .negation (word (.keyword .not) "NOT")
    (.binary
      (.binary (.binary variableX (word (.symbol .plus) "+") .plus (number 1))
        (word (.symbol .star) "*") .star (number 2))
      (word (.symbol .lessEqual) "<=") .lessEqual variableX)

/-- `x` is a number in slot 3, and a condition is read. -/
def draft : Draft where
  ahead := negated.print (word (.symbol .leftParen) "(") (word (.symbol .rightParen) ")") 0 ++
    [word (.keyword .thenWord) "THEN"]
  finish := word .eof ""
  scope := (({} : Scope).declare "x" 3).setType "x" .number

theorem expression_of_prints_negated :
    CompileM.expression draft = .ok .boolean { draft with
      ahead := [word (.keyword .thenWord) "THEN"]
      chunk := draft.chunk.append (negated.code draft.slot) } := by
  have hspelled : negated.Spelled := by
    simp only [negated, Expression.Spelled, variableX, number, Token.Reads]
    decide
  have hty : negated.type? draft.types = some .boolean := by decide
  obtain ⟨hprint, hrun⟩ := expression_of_prints hspelled rfl hty (by decide)
  refine hrun _ _ (hprint (word (.symbol .leftParen) "(") (word (.symbol .rightParen) ")") rfl rfl).1
    ?_ rfl
  exact noOperator_cons rfl rfl []

end Sample

end BoundedLoop
