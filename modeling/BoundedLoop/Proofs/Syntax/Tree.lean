import BoundedLoop.Operator

/-!
# Syntax trees

The tree of a program, down to its tokens: `tokens` writes a tree out, and `Grammatical` says when
it is a tree of the grammar. The compiler builds no tree, it is what its reading amounts to.

A block is a list of statements. The arms of an `IF` run from its keyword up to the `END IF`; an
`ELSE` right in front of an `IF` goes on with the same chain (`Arms.elseIf`), so what follows the
`ELSE` of the last arm never begins with `IF`. A last arm without `ELSE` has an empty alternative.
-/

namespace BoundedLoop

inductive Expression where
  | constant (token : Token) (value : Value)
  | reference (token : Token) (name : String)
  | group (opening : Token) (inner : Expression) (closing : Token)
  | negation (token : Token) (inner : Expression)
  | binary (left : Expression) (token : Token) (op : BinaryOp) (right : Expression)

mutual

inductive Statement where
  | assign (target : Token) (name : String) (arrow : Token) (value : Expression)
  | choice (arms : Arms) (closer : Token)
  | loop (keyword : Token) (count : Expression) (times : Token) (body : List Statement)
      (closer : Token)
  | abort (token : Token)

inductive Arms where
  | last (keyword : Token) (condition : Expression) (thenWord : Token) (body : List Statement)
      (elseWord : Option Token) (alternative : List Statement)
  | elseIf (keyword : Token) (condition : Expression) (thenWord : Token) (body : List Statement)
      (elseWord : Token) (rest : Arms)

end

/-! ### Writing trees out -/

def Expression.tokens : Expression → List Token
  | constant t _ | reference t _ => [t]
  | group opening e closing => opening :: e.tokens ++ [closing]
  | negation t e => t :: e.tokens
  | binary l t _ r => l.tokens ++ t :: r.tokens

theorem Expression.length_tokens_pos (e : Expression) : 0 < e.tokens.length := by
  cases e with
  | constant | reference => exact Nat.one_pos
  | group | negation => exact Nat.succ_pos _
  | binary l t op r =>
    rw [tokens, List.length_append, List.length_cons]
    omega

mutual

def Statement.tokens : Statement → List Token
  | .assign target _ arrow value => target :: arrow :: value.tokens
  | .choice arms closer => arms.tokens ++ [closer]
  | .loop keyword count times body closer =>
    keyword :: count.tokens ++ times :: Block.tokens body ++ [closer]
  | .abort token => [token]

def Arms.tokens : Arms → List Token
  | .last keyword condition thenWord body elseWord alternative =>
    keyword :: condition.tokens ++ thenWord :: Block.tokens body ++ elseWord.toList ++
      Block.tokens alternative
  | .elseIf keyword condition thenWord body elseWord rest =>
    keyword :: condition.tokens ++ thenWord :: Block.tokens body ++ elseWord :: rest.tokens

def Block.tokens : List Statement → List Token
  | [] => []
  | s :: ss => s.tokens ++ Block.tokens ss

end

mutual

def Statement.loops : Statement → Nat
  | .assign .. => 0
  | .choice arms _ => arms.loops
  | .loop _ _ _ body _ => 1 + Block.loops body
  | .abort _ => 0

def Arms.loops : Arms → Nat
  | .last _ _ _ body _ alternative => Block.loops body + Block.loops alternative
  | .elseIf _ _ _ body _ rest => Block.loops body + rest.loops

def Block.loops : List Statement → Nat
  | [] => 0
  | s :: ss => s.loops + Block.loops ss

end

/-! ### The grammar -/

/-- `t` can stand in an expression for the variable `name`: an identifier or `OUTPUT`. A label that
carries a name would do as well, but no scanned label carries one. -/
def Token.Reads (t : Token) (name : String) : Prop :=
  t.kind.operandForm? = some .reference ∧ t.variableName? = some name

/-- `t` can be assigned to, as the variable `name`. -/
def Token.Assigns (t : Token) (name : String) : Prop :=
  (t.kind = .identifier ∨ t.kind = .keyword .output) ∧ t.variableName? = some name

/-- The expressions whose operators outside of parentheses bind at least as tightly as `level`. An
operator takes its own level on its left, and a tighter one on its right: operators of one level
group to the left. -/
def Expression.Grammatical : Level → Expression → Prop
  | _, constant t v => t.kind = .constant ∧ t.value? = some v
  | _, reference t name => t.Reads name
  | _, group opening e closing =>
    opening.kind = .symbol .leftParen ∧ e.Grammatical .or ∧ closing.kind = .symbol .rightParen
  | _, negation t e => t.kind = .keyword .not ∧ e.Grammatical .unary
  | level, binary l t op r =>
    t.kind.binaryOp? = some op ∧ level ≤ op.level ∧ l.Grammatical op.level ∧
      r.Grammatical op.level.tighter

mutual

/-- The statements of the grammar. `inLoop` says whether a loop encloses the statement. -/
def Statement.Grammatical (inLoop : Bool) : Statement → Prop
  | .assign target name arrow value =>
    target.Assigns name ∧ arrow.kind = .symbol .leftArrow ∧ value.Grammatical .or
  | .choice arms closer => arms.Grammatical inLoop ∧ closer.kind = .keyword .endIf
  | .loop keyword count times body closer =>
    keyword.kind = .keyword .loop ∧ count.Grammatical .or ∧ times.kind = .keyword .times ∧
      Block.Grammatical true body ∧ closer.kind = .keyword .endLoop
  | .abort token => inLoop = true ∧ token.kind = .keyword .abortLoop

def Arms.Grammatical (inLoop : Bool) : Arms → Prop
  | .last keyword condition thenWord body elseWord alternative =>
    keyword.kind = .keyword .ifWord ∧ condition.Grammatical .or ∧
      thenWord.kind = .keyword .thenWord ∧ Block.Grammatical inLoop body ∧
      Block.Grammatical inLoop alternative ∧
      match elseWord with
      | none => alternative = []
      | some word =>
        word.kind = .keyword .elseWord ∧
          ∀ t ∈ (Block.tokens alternative).head?, t.kind ≠ .keyword .ifWord
  | .elseIf keyword condition thenWord body elseWord rest =>
    keyword.kind = .keyword .ifWord ∧ condition.Grammatical .or ∧
      thenWord.kind = .keyword .thenWord ∧ Block.Grammatical inLoop body ∧
      elseWord.kind = .keyword .elseWord ∧ rest.Grammatical inLoop

def Block.Grammatical (inLoop : Bool) : List Statement → Prop
  | [] => True
  | s :: ss => s.Grammatical inLoop ∧ Block.Grammatical inLoop ss

end

/-- A program is a block outside of all loops. -/
abbrev Program := List Statement

/-- `p` is a tree of the grammar for `tokens`, which end with the end of the input. -/
def Program.Parses (p : Program) (tokens : List Token) : Prop :=
  Block.Grammatical false p ∧ ∃ finish, finish.kind = .eof ∧ tokens = Block.tokens p ++ [finish]

/-! ### Kinds that begin an operand -/

namespace Token.Kind

theorem operandForm?_eq_constant {k : Kind} : k.operandForm? = some .constant ↔ k = .constant := by
  unfold operandForm?; split <;> simp_all

theorem operandForm?_eq_grouping {k : Kind} :
    k.operandForm? = some .grouping ↔ k = .symbol .leftParen := by
  unfold operandForm?; split <;> simp_all

theorem operandForm?_eq_negation {k : Kind} :
    k.operandForm? = some .negation ↔ k = .keyword .not := by
  unfold operandForm?; split <;> simp_all

end Token.Kind

/-! ### Binding levels -/

theorem Level.le_refl (l : Level) : l ≤ l := Nat.le_refl l.rank

theorem Level.le_trans {a b c : Level} (h : a ≤ b) (h' : b ≤ c) : a ≤ c :=
  Nat.le_trans (m := b.rank) h h'

/-- Every operator leaves room for a tighter level. -/
theorem BinaryOp.lt_tighter (op : BinaryOp) : op.level < op.level.tighter := by
  cases op <;> decide

/-- The next token, if there is one, is no operator that binds at least as tightly as `level`. -/
def StopsAt (level : Level) (ts : List Token) : Prop :=
  ∀ t ∈ ts.head?, ∀ op, t.kind.binaryOp? = some op → ¬ level ≤ op.level

def NoOperator (ts : List Token) : Prop :=
  ∀ t ∈ ts.head?, t.kind.binaryOp? = none

theorem NoOperator.stopsAt {ts : List Token} (h : NoOperator ts) (level : Level) :
    StopsAt level ts := by
  intro t ht op hop
  rw [h t ht] at hop
  cases hop

/-- Nothing that binds more tightly than `m` comes next. -/
def LooserThan (m : Level) (ts : List Token) : Prop :=
  ∀ t ∈ ts.head?, ∀ op, t.kind.binaryOp? = some op → op.level ≤ m

theorem StopsAt.looserThan {op : BinaryOp} {ts : List Token} (h : StopsAt op.level.tighter ts) :
    LooserThan op.level ts := by
  intro t ht op' hop'
  have hlt := h t ht op' hop'
  have hrank := Level.rank_tighter op.level
  show op'.level.rank ≤ op.level.rank
  have : ¬ op.level.tighter.rank ≤ op'.level.rank := hlt
  omega

theorem LooserThan.stopsAt {op : BinaryOp} {m : Level} {ts : List Token} (h : LooserThan m ts)
    (hm : m ≤ op.level) : StopsAt op.level.tighter ts := by
  intro t ht op' hop' hle
  have h₁ : op'.level.rank ≤ m.rank := h t ht op' hop'
  have h₂ : op.level.rank < op.level.tighter.rank := op.lt_tighter
  have h₃ : m.rank ≤ op.level.rank := hm
  have h₄ : op.level.tighter.rank ≤ op'.level.rank := hle
  omega

theorem looserThan_primary (ts : List Token) : LooserThan .primary ts := by
  intro t _ op _
  cases op <;> decide

theorem Level.le_primary (l : Level) : l ≤ .primary := by
  cases l <;> decide

theorem Expression.Grammatical.mono {a b : Level} (hab : a ≤ b) {e : Expression}
    (h : e.Grammatical b) : e.Grammatical a := by
  cases e with
  | binary l t op r => exact ⟨h.1, Level.le_trans hab h.2.1, h.2.2⟩
  | _ => exact h

/-! ### How trees begin -/

def BeginsWith (kind : Token.Kind) (ts : List Token) : Prop :=
  ∃ t rest, ts = t :: rest ∧ t.kind = kind

def BeginsWithCloser (ts : List Token) : Prop :=
  ∃ t rest, ts = t :: rest ∧ t.kind.closesBlock = true

theorem BeginsWithCloser.cons {t : Token} {kind : Token.Kind} (h : t.kind = kind)
    (hc : kind.closesBlock = true) (ts : List Token) : BeginsWithCloser (t :: ts) :=
  ⟨t, ts, rfl, by rw [h, hc]⟩

theorem BeginsWithCloser.noOperator {ts : List Token} (h : BeginsWithCloser ts) :
    NoOperator ts := by
  obtain ⟨t, rest, rfl, hc⟩ := h
  intro t' ht'
  cases ht'
  revert hc
  unfold Token.Kind.closesBlock
  split <;> simp_all [Token.Kind.binaryOp?]

theorem noOperator_cons {t : Token} {kind : Token.Kind} (h : t.kind = kind)
    (hk : kind.binaryOp? = none) (ts : List Token) : NoOperator (t :: ts) := by
  intro t' ht'
  cases ht'
  rw [h, hk]

theorem Arms.tokens_eq_cons {inLoop : Bool} {a : Arms} (h : a.Grammatical inLoop) :
    ∃ keyword ts, a.tokens = keyword :: ts ∧ keyword.kind = .keyword .ifWord := by
  cases a with
  | last keyword =>
    simp only [Arms.Grammatical] at h
    exact ⟨keyword, _, rfl, h.1⟩
  | elseIf keyword =>
    simp only [Arms.Grammatical] at h
    exact ⟨keyword, _, rfl, h.1⟩

/-- A statement begins with a token that neither goes on with an expression nor closes a block. -/
theorem Statement.tokens_eq_cons {inLoop : Bool} {s : Statement} (h : s.Grammatical inLoop) :
    ∃ t ts, s.tokens = t :: ts ∧ t.kind.binaryOp? = none ∧ t.kind.closesBlock = false := by
  cases s with
  | assign target name arrow value =>
    simp only [Statement.Grammatical, Token.Assigns] at h
    refine ⟨target, _, rfl, ?_⟩
    rcases h.1.1 with hk | hk <;> simp [hk, Token.Kind.binaryOp?, Token.Kind.closesBlock]
  | choice arms closer =>
    simp only [Statement.Grammatical] at h
    obtain ⟨keyword, ts, hts, hk⟩ := Arms.tokens_eq_cons h.1
    refine ⟨keyword, ts ++ [closer], by simp [Statement.tokens, hts], ?_⟩
    simp [hk, Token.Kind.binaryOp?, Token.Kind.closesBlock]
  | loop keyword count times body closer =>
    simp only [Statement.Grammatical] at h
    refine ⟨keyword, _, rfl, ?_⟩
    simp [h.1, Token.Kind.binaryOp?, Token.Kind.closesBlock]
  | abort token =>
    simp only [Statement.Grammatical] at h
    refine ⟨token, _, rfl, ?_⟩
    simp [h.2, Token.Kind.binaryOp?, Token.Kind.closesBlock]

theorem Block.noOperator_tokens_append {inLoop : Bool} {ss : List Statement} {rest : List Token}
    (h : Block.Grammatical inLoop ss) (hrest : NoOperator rest) :
    NoOperator (Block.tokens ss ++ rest) := by
  cases ss with
  | nil => exact hrest
  | cons s ss =>
    obtain ⟨t, ts, hts, hop, -⟩ := Statement.tokens_eq_cons h.1
    simp only [Block.tokens, hts, List.cons_append]
    exact noOperator_cons rfl hop _

end BoundedLoop
