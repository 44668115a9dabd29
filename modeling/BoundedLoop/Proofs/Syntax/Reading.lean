import BoundedLoop.Proofs.Syntax.Tree

/-!
# Reading trees

`Read.program` reads the tree of a token sequence by recursive descent and binding levels, with the
same bounds on its recursion as the compiler. It reads exactly the trees of the grammar
(`Read.program_eq_some_iff`), so a token sequence has at most one tree (`Program.Parses.unique`).
-/

namespace BoundedLoop

/-- Reads something off the front of a token sequence. -/
abbrev Reader (α : Type) := List Token → Option (α × List Token)

namespace Read

def token (kind : Token.Kind) : Reader Token
  | [] => none
  | t :: ts => if t.kind = kind then some (t, ts) else none

/-! ### Expressions -/

def operand (sub : Level → Reader Expression) (t : Token) : OperandForm → Reader Expression
  | .constant, ts => t.value?.map fun v => (.constant t v, ts)
  | .reference, ts => t.variableName?.map fun name => (.reference t name, ts)
  | .grouping, ts => do
    let (e, ts) ← sub .or ts
    let (closing, ts) ← token (.symbol .rightParen) ts
    return (.group t e closing, ts)
  | .negation, ts => do
    let (e, ts) ← sub .unary ts
    return (.negation t e, ts)

def operations (sub : Level → Reader Expression) (level : Level) :
    Nat → Expression → Reader Expression
  | 0, left, ts => some (left, ts)
  | _ + 1, left, [] => some (left, [])
  | bound + 1, left, t :: ts =>
    match t.kind.binaryOp? with
    | none => some (left, t :: ts)
    | some op =>
      if level ≤ op.level then do
        let (right, ts) ← sub op.level.tighter ts
        operations sub level bound (.binary left t op right) ts
      else
        some (left, t :: ts)

def climb : Nat → Level → Reader Expression
  | 0, _, _ => none
  | _ + 1, _, [] => none
  | bound + 1, level, t :: ts =>
    match t.kind.operandForm? with
    | none => none
    | some form => do
      let (left, ts) ← operand (climb bound) t form ts
      operations (climb bound) level bound left ts

def expression : Reader Expression := fun ts => climb (ts.length + 1) .or ts

/-! ### Statements -/

def assignment (target : Token) : Reader Statement := fun ts => do
  let name ← target.variableName?
  let (arrow, ts) ← token (.symbol .leftArrow) ts
  let (value, ts) ← expression ts
  return (.assign target name arrow value, ts)

def arms (block : Reader (List Statement)) : Nat → Token → Reader Arms
  | 0, _, _ => none
  | bound + 1, keyword, ts => do
    let (condition, ts) ← expression ts
    let (thenWord, ts) ← token (.keyword .thenWord) ts
    let (body, ts) ← block ts
    match token (.keyword .elseWord) ts with
    | none => return (.last keyword condition thenWord body none [], ts)
    | some (elseWord, ts) =>
      match token (.keyword .ifWord) ts with
      | some (follower, ts) => do
        let (rest, ts) ← arms block bound follower ts
        return (.elseIf keyword condition thenWord body elseWord rest, ts)
      | none => do
        let (alternative, ts) ← block ts
        return (.last keyword condition thenWord body (some elseWord) alternative, ts)

def loop (block : Reader (List Statement)) (keyword : Token) : Reader Statement := fun ts => do
  let (count, ts) ← expression ts
  let (times, ts) ← token (.keyword .times) ts
  let (body, ts) ← block ts
  let (closer, ts) ← token (.keyword .endLoop) ts
  return (.loop keyword count times body closer, ts)

def choice (block : Reader (List Statement)) (bound : Nat) (keyword : Token) : Reader Statement :=
  fun ts => do
    let (found, ts) ← arms block bound keyword ts
    let (closer, ts) ← token (.keyword .endIf) ts
    return (.choice found closer, ts)

def statement (block : Bool → Reader (List Statement)) (inLoop : Bool) (bound : Nat) :
    Reader Statement
  | [] => none
  | t :: ts =>
    match t.kind with
    | .identifier | .keyword .output => assignment t ts
    | .keyword .ifWord => choice (block inLoop) bound t ts
    | .keyword .loop => loop (block true) t ts
    | .keyword .abortLoop => if inLoop then some (.abort t, ts) else none
    | _ => none

def block : Nat → Bool → Reader (List Statement)
  | 0, _, _ => none
  | _ + 1, _, [] => none
  | bound + 1, inLoop, t :: ts =>
    if t.kind.closesBlock then some ([], t :: ts)
    else do
      let (s, ts) ← statement (block bound) inLoop bound (t :: ts)
      let (ss, ts) ← block bound inLoop ts
      return (s :: ss, ts)

def program : Nat → Reader Program
  | 0, _ => none
  | _ + 1, [] => some ([], [])
  | bound + 1, t :: ts => do
    let (s, ts) ← statement (block bound) false bound (t :: ts)
    let (ss, ts) ← program bound ts
    return (s :: ss, ts)

/-! ### What is read is a tree of the tokens read -/

theorem token_eq_some {kind : Token.Kind} {ts rest : List Token} {t : Token}
    (h : token kind ts = some (t, rest)) : t.kind = kind ∧ ts = t :: rest := by
  cases ts with
  | nil => cases h
  | cons t' ts =>
    simp only [token] at h
    split at h
    · rename_i hk
      cases h
      exact ⟨hk, rfl⟩
    · cases h

theorem token_cons {kind : Token.Kind} {t : Token} (h : t.kind = kind) (ts : List Token) :
    token kind (t :: ts) = some (t, ts) := by
  simp [token, h]

theorem token_eq_none {kind other : Token.Kind} {ts : List Token} (h : BeginsWith kind ts)
    (hne : kind ≠ other) : token other ts = none := by
  obtain ⟨t, rest, rfl, hk⟩ := h
  simp [token, hk, hne]

/-- What reading with `sub` has to give for it to be the reading of subexpressions. -/
def Sound (sub : Level → Reader Expression) (bound : Nat) : Prop :=
  ∀ level ts e rest, ts.length ≤ bound → sub level ts = some (e, rest) →
    ts = e.tokens ++ rest ∧ e.Grammatical level ∧ StopsAt level rest

theorem operand_sound {sub : Level → Reader Expression} {bound : Nat} (hsub : Sound sub bound)
    {t : Token} {form : OperandForm} (hform : t.kind.operandForm? = some form)
    {ts rest : List Token} {e : Expression} (hlen : ts.length ≤ bound)
    (h : operand sub t form ts = some (e, rest)) :
    t :: ts = e.tokens ++ rest ∧ ∀ level, e.Grammatical level := by
  cases form with
  | constant =>
    simp only [operand, Option.map_eq_some_iff, Prod.mk.injEq] at h
    obtain ⟨v, hv, rfl, rfl⟩ := h
    exact ⟨rfl, fun _ => ⟨Token.Kind.operandForm?_eq_constant.1 hform, hv⟩⟩
  | reference =>
    simp only [operand, Option.map_eq_some_iff, Prod.mk.injEq] at h
    obtain ⟨name, hname, rfl, rfl⟩ := h
    exact ⟨rfl, fun _ => ⟨hform, hname⟩⟩
  | grouping =>
    simp only [operand, Option.bind_eq_bind, Option.bind_eq_some_iff, Option.pure_def,
      Option.some.injEq, Prod.mk.injEq, Prod.exists] at h
    obtain ⟨inner, ts₁, hinner, closing, ts₂, hclosing, rfl, rfl⟩ := h
    obtain ⟨rfl, hgram, -⟩ := hsub .or ts inner ts₁ hlen hinner
    obtain ⟨hclose, rfl⟩ := token_eq_some hclosing
    have hopen := Token.Kind.operandForm?_eq_grouping.1 hform
    exact ⟨by simp [Expression.tokens], fun _ => ⟨hopen, hgram, hclose⟩⟩
  | negation =>
    simp only [operand, Option.bind_eq_bind, Option.bind_eq_some_iff, Option.pure_def,
      Option.some.injEq, Prod.mk.injEq, Prod.exists] at h
    obtain ⟨inner, ts₁, hinner, rfl, rfl⟩ := h
    obtain ⟨rfl, hgram, -⟩ := hsub .unary ts inner ts₁ hlen hinner
    exact ⟨rfl, fun _ => ⟨Token.Kind.operandForm?_eq_negation.1 hform, hgram⟩⟩

/-- Going on behind `left`: the operators read so far bind at least as tightly as `m`, and the next
one does not bind more tightly, so `left` can be its left operand. -/
theorem operations_sound {sub : Level → Reader Expression} {bound : Nat} (hsub : Sound sub bound)
    {level : Level} : ∀ (k : Nat) {left e : Expression} {m : Level} {ts rest : List Token},
    ts.length ≤ k → ts.length ≤ bound → level ≤ m → left.Grammatical m → LooserThan m ts →
    operations sub level k left ts = some (e, rest) →
    left.tokens ++ ts = e.tokens ++ rest ∧ e.Grammatical level ∧ StopsAt level rest
  | 0, left, e, m, ts, rest, hk, _, hm, hleft, _, h => by
    cases h
    obtain rfl := List.length_eq_zero_iff.1 (Nat.le_zero.1 hk)
    exact ⟨rfl, hleft.mono hm, by simp [StopsAt]⟩
  | k + 1, left, e, m, [], rest, _, _, hm, hleft, _, h => by
    cases h
    exact ⟨rfl, hleft.mono hm, by simp [StopsAt]⟩
  | k + 1, left, e, m, t :: ts, rest, hk, hb, hm, hleft, hloose, h => by
    simp only [List.length_cons] at hk hb
    simp only [operations] at h
    split at h
    · rename_i hop
      cases h
      refine ⟨rfl, hleft.mono hm, ?_⟩
      intro t' ht' op hop'
      cases ht'
      rw [hop] at hop'
      cases hop'
    · rename_i op hop
      split at h
      · rename_i hlevel
        simp only [Option.bind_eq_bind, Option.bind_eq_some_iff, Prod.exists] at h
        obtain ⟨right, ts', hright, h⟩ := h
        obtain ⟨rfl, hgram, hstop⟩ := hsub _ ts right ts' (by omega) hright
        have hle : op.level ≤ m := hloose t rfl op hop
        have hnew : (Expression.binary left t op right).Grammatical op.level :=
          ⟨hop, Level.le_refl _, hleft.mono hle, hgram⟩
        simp only [List.length_append] at hk hb
        have ih := operations_sound hsub k (by omega) (by omega) hlevel hnew hstop.looserThan h
        exact ⟨by rw [← ih.1]; simp [Expression.tokens], ih.2⟩
      · rename_i hlevel
        cases h
        refine ⟨rfl, hleft.mono hm, ?_⟩
        intro t' ht' op' hop'
        cases ht'
        rw [hop] at hop'
        cases hop'
        exact hlevel

theorem climb_sound : ∀ n, Sound (climb n) n
  | 0, _, _, _, _, _, h => by cases h
  | n + 1, level, [], e, rest, _, h => by cases h
  | n + 1, level, t :: ts, e, rest, hlen, h => by
    simp only [List.length_cons, Nat.add_le_add_iff_right] at hlen
    simp only [climb] at h
    split at h
    · cases h
    · rename_i form hform
      simp only [Option.bind_eq_bind, Option.bind_eq_some_iff, Prod.exists] at h
      obtain ⟨left, ts₁, hleft, h⟩ := h
      obtain ⟨heq, hgram⟩ := operand_sound (climb_sound n) hform hlen hleft
      have hlen₁ : ts₁.length ≤ ts.length := by
        have hpos := left.length_tokens_pos
        have := congrArg List.length heq
        simp only [List.length_cons, List.length_append] at this
        omega
      have := operations_sound (climb_sound n) n (by omega) (by omega) (Level.le_primary level)
        (hgram .primary) (looserThan_primary ts₁) h
      exact ⟨heq.trans this.1, this.2⟩

theorem expression_sound {ts rest : List Token} {e : Expression}
    (h : expression ts = some (e, rest)) :
    ts = e.tokens ++ rest ∧ e.Grammatical .or ∧ StopsAt .or rest :=
  climb_sound (ts.length + 1) .or ts e rest (Nat.le_succ _) h

/-- What a reader of blocks gives: trees of what it has read. -/
def SoundBlock (inLoop : Bool) (reader : Reader (List Statement)) : Prop :=
  ∀ ts ss rest, reader ts = some (ss, rest) →
    ts = Block.tokens ss ++ rest ∧ Block.Grammatical inLoop ss

theorem assignment_sound {target : Token} {ts rest : List Token} {s : Statement}
    (hkind : target.kind = .identifier ∨ target.kind = .keyword .output)
    (h : assignment target ts = some (s, rest)) (inLoop : Bool) :
    target :: ts = s.tokens ++ rest ∧ s.Grammatical inLoop := by
  simp only [assignment, Option.bind_eq_bind, Option.bind_eq_some_iff, Option.pure_def,
    Option.some.injEq, Prod.mk.injEq, Prod.exists] at h
  obtain ⟨name, hname, arrow, ts₁, harrow, value, ts₂, hvalue, rfl, rfl⟩ := h
  obtain ⟨karrow, rfl⟩ := token_eq_some harrow
  obtain ⟨rfl, hgram, -⟩ := expression_sound hvalue
  exact ⟨rfl, ⟨hkind, hname⟩, karrow, hgram⟩

theorem arms_sound {inLoop : Bool} {block : Reader (List Statement)}
    (hblock : SoundBlock inLoop block) : ∀ (k : Nat) {keyword : Token} {ts rest : List Token}
    {a : Arms}, keyword.kind = .keyword .ifWord → arms block k keyword ts = some (a, rest) →
    keyword :: ts = a.tokens ++ rest ∧ a.Grammatical inLoop
  | 0, _, _, _, _, _, h => by cases h
  | k + 1, keyword, ts, rest, a, hkey, h => by
    simp only [arms, Option.bind_eq_bind, Option.bind_eq_some_iff, Prod.exists] at h
    obtain ⟨condition, ts₁, hcond, thenWord, ts₂, hthen, body, ts₃, hbody, h⟩ := h
    obtain ⟨rfl, hcgram, -⟩ := expression_sound hcond
    obtain ⟨kthen, rfl⟩ := token_eq_some hthen
    obtain ⟨rfl, hbgram⟩ := hblock _ _ _ hbody
    split at h
    · cases h
      refine ⟨by simp [Arms.tokens, Block.tokens], ?_⟩
      simp only [Arms.Grammatical]
      exact ⟨hkey, hcgram, kthen, hbgram, trivial, trivial⟩
    · rename_i elseWord ts₄ helse
      obtain ⟨kelse, rfl⟩ := token_eq_some helse
      split at h
      · rename_i follower ts₅ hif
        obtain ⟨kif, rfl⟩ := token_eq_some hif
        simp only [Option.bind_eq_some_iff, Option.pure_def, Option.some.injEq, Prod.mk.injEq,
          Prod.exists] at h
        obtain ⟨more, ts₆, hmore, rfl, rfl⟩ := h
        obtain ⟨heq, hgram⟩ := arms_sound hblock k kif hmore
        refine ⟨by simp [Arms.tokens, heq], ?_⟩
        simp only [Arms.Grammatical]
        exact ⟨hkey, hcgram, kthen, hbgram, kelse, hgram⟩
      · rename_i hif
        simp only [Option.bind_eq_some_iff, Option.pure_def, Option.some.injEq, Prod.mk.injEq,
          Prod.exists] at h
        obtain ⟨alternative, ts₆, halt, rfl, rfl⟩ := h
        obtain ⟨rfl, hagram⟩ := hblock _ _ _ halt
        refine ⟨by simp [Arms.tokens], ?_⟩
        simp only [Arms.Grammatical]
        refine ⟨hkey, hcgram, kthen, hbgram, hagram, kelse, fun t ht hk => ?_⟩
        obtain ⟨ts, hts⟩ := List.head?_eq_some_iff.1 ht
        rw [hts, List.cons_append, token_cons hk] at hif
        cases hif

theorem statement_sound {inLoop : Bool} {block : Bool → Reader (List Statement)} {bound : Nat}
    (hblock : ∀ inLoop, SoundBlock inLoop (block inLoop)) {ts rest : List Token} {s : Statement}
    (h : statement block inLoop bound ts = some (s, rest)) :
    ts = s.tokens ++ rest ∧ s.Grammatical inLoop := by
  cases ts with
  | nil => cases h
  | cons t ts =>
    simp only [statement] at h
    split at h
    · rename_i hk
      exact assignment_sound (.inl hk) h inLoop
    · rename_i hk
      exact assignment_sound (.inr hk) h inLoop
    · rename_i hk
      simp only [choice, Option.bind_eq_bind, Option.bind_eq_some_iff, Option.pure_def,
        Option.some.injEq, Prod.mk.injEq, Prod.exists] at h
      obtain ⟨found, ts₁, hfound, closer, ts₂, hcloser, rfl, rfl⟩ := h
      obtain ⟨heq, hgram⟩ := arms_sound (hblock inLoop) bound hk hfound
      obtain ⟨kcloser, rfl⟩ := token_eq_some hcloser
      refine ⟨by simp [Statement.tokens, heq], ?_⟩
      simp only [Statement.Grammatical]
      exact ⟨hgram, kcloser⟩
    · rename_i hk
      simp only [loop, Option.bind_eq_bind, Option.bind_eq_some_iff, Option.pure_def,
        Option.some.injEq, Prod.mk.injEq, Prod.exists] at h
      obtain ⟨count, ts₁, hcount, times, ts₂, htimes, body, ts₃, hbody, closer, ts₄, hcloser,
        rfl, rfl⟩ := h
      obtain ⟨rfl, hcgram, -⟩ := expression_sound hcount
      obtain ⟨ktimes, rfl⟩ := token_eq_some htimes
      obtain ⟨rfl, hbgram⟩ := hblock true _ _ _ hbody
      obtain ⟨kcloser, rfl⟩ := token_eq_some hcloser
      refine ⟨by simp [Statement.tokens], ?_⟩
      simp only [Statement.Grammatical]
      exact ⟨hk, hcgram, ktimes, hbgram, kcloser⟩
    · rename_i hk
      split at h
      · rename_i hloop
        cases h
        refine ⟨rfl, ?_⟩
        simp only [Statement.Grammatical]
        exact ⟨hloop, hk⟩
      · cases h
    · cases h

theorem block_sound : ∀ (n : Nat) (inLoop : Bool), SoundBlock inLoop (block n inLoop)
  | 0, _, _, _, _, h => by cases h
  | n + 1, _, [], _, _, h => by cases h
  | n + 1, inLoop, t :: ts, ss, rest, h => by
    simp only [block] at h
    split at h
    · cases h
      exact ⟨rfl, trivial⟩
    · simp only [Option.bind_eq_bind, Option.bind_eq_some_iff, Option.pure_def,
        Option.some.injEq, Prod.mk.injEq, Prod.exists] at h
      obtain ⟨s, ts₁, hs, ss, ts₂, hss, rfl, rfl⟩ := h
      obtain ⟨heq, hgram⟩ := statement_sound (block_sound n) hs
      obtain ⟨rfl, hgrams⟩ := block_sound n inLoop _ _ _ hss
      exact ⟨by rw [heq]; simp [Block.tokens], hgram, hgrams⟩

theorem program_sound : ∀ (n : Nat) {ts rest : List Token} {p : Program},
    program n ts = some (p, rest) → ts = Block.tokens p ∧ rest = [] ∧ Block.Grammatical false p
  | 0, _, _, _, h => by cases h
  | n + 1, [], rest, p, h => by
    cases h
    exact ⟨rfl, rfl, trivial⟩
  | n + 1, t :: ts, rest, p, h => by
    simp only [program, Option.bind_eq_bind, Option.bind_eq_some_iff, Option.pure_def,
      Option.some.injEq, Prod.mk.injEq, Prod.exists] at h
    obtain ⟨s, ts₁, hs, ss, ts₂, hss, rfl, rfl⟩ := h
    obtain ⟨heq, hgram⟩ := statement_sound (block_sound n) hs
    obtain ⟨rfl, hrest, hgrams⟩ := program_sound n hss
    exact ⟨heq, hrest, hgram, hgrams⟩

/-! ### How far reading gets -/

theorem length_of_token {kind : Token.Kind} {ts rest : List Token} {t : Token}
    (h : token kind ts = some (t, rest)) : rest.length < ts.length := by
  obtain ⟨-, rfl⟩ := token_eq_some h
  simp

theorem length_of_expression {ts rest : List Token} {e : Expression}
    (h : expression ts = some (e, rest)) : rest.length < ts.length := by
  obtain ⟨rfl, -, -⟩ := expression_sound h
  have hpos := e.length_tokens_pos
  simp only [List.length_append]
  omega

theorem length_of_block {n : Nat} {inLoop : Bool} {ts rest : List Token} {ss : List Statement}
    (h : block n inLoop ts = some (ss, rest)) : rest.length ≤ ts.length := by
  obtain ⟨rfl, -⟩ := block_sound n inLoop _ _ _ h
  simp

theorem length_of_statement {n : Nat} {inLoop : Bool} {ts rest : List Token} {s : Statement}
    (h : statement (block n) inLoop n ts = some (s, rest)) : rest.length < ts.length := by
  obtain ⟨rfl, hs⟩ := statement_sound (block_sound n) h
  obtain ⟨t, ts, hts, -⟩ := Statement.tokens_eq_cons hs
  simp only [hts, List.length_append, List.length_cons]
  omega

/-! ### Every tree of the grammar is read -/

theorem operations_of_stopsAt (sub : Level → Reader Expression) {level : Level} (k : Nat)
    (e : Expression) {ts : List Token} (h : StopsAt level ts) :
    operations sub level k e ts = some (e, ts) := by
  cases k with
  | zero => rfl
  | succ k =>
    cases ts with
    | nil => rfl
    | cons t ts =>
      simp only [operations]
      split
      · rfl
      · rename_i op hop
        rw [if_neg (h t rfl op hop)]

/-- Reading at a loose level first reads `e`, whose operators bind at least as tightly as `m`, and
then goes on with `e` as the left operand. -/
theorem climb_complete (e : Expression) : ∀ (m level : Level) (n : Nat) (rest : List Token),
    e.Grammatical m → level ≤ m → LooserThan m rest → (e.tokens ++ rest).length ≤ n →
    ∃ k, rest.length ≤ k ∧
      climb (n + 1) level (e.tokens ++ rest) = operations (climb n) level k e rest := by
  induction e with
  | constant t v =>
    rintro m level n rest ⟨hkind, hv⟩ - - hlen
    refine ⟨n, by simp [Expression.tokens] at hlen; omega, ?_⟩
    simp [Expression.tokens, climb, hkind, Token.Kind.operandForm?, operand, hv]
  | reference t name =>
    rintro m level n rest ⟨hform, hname⟩ - - hlen
    refine ⟨n, by simp [Expression.tokens] at hlen; omega, ?_⟩
    simp [Expression.tokens, climb, hform, operand, hname]
  | group opening e closing ih =>
    rintro m level n rest ⟨hopen, hgram, hclose⟩ - - hlen
    simp only [Expression.tokens, List.cons_append, List.append_assoc, List.nil_append,
      List.length_cons] at hlen
    obtain ⟨n, rfl⟩ : ∃ n', n = n' + 1 := ⟨n - 1, by omega⟩
    have hstop : NoOperator (closing :: rest) := by
      intro t ht
      cases ht
      rw [hclose]
      rfl
    obtain ⟨k, -, hk⟩ := ih .or .or n (closing :: rest) hgram (Level.le_refl _)
      (fun t ht op hop => absurd hop (by rw [hstop t ht]; simp)) (by omega)
    rw [operations_of_stopsAt _ _ _ (hstop.stopsAt _)] at hk
    refine ⟨n + 1, by simp only [List.length_append, List.length_cons] at hlen; omega, ?_⟩
    simp [Expression.tokens, climb, hopen, Token.Kind.operandForm?, operand, hk, token_cons hclose]
  | negation t e ih =>
    rintro m level n rest ⟨hnot, hgram⟩ - - hlen
    simp only [Expression.tokens, List.cons_append, List.length_cons] at hlen
    obtain ⟨n, rfl⟩ : ∃ n', n = n' + 1 := ⟨n - 1, by omega⟩
    have hstop : StopsAt .unary rest := by
      intro t _ op _
      cases op <;> decide
    obtain ⟨k, -, hk⟩ := ih .unary .unary n rest hgram (Level.le_refl _)
      (fun t _ op _ => by cases op <;> decide) (by omega)
    rw [operations_of_stopsAt _ _ _ hstop] at hk
    refine ⟨n + 1, by simp only [List.length_append] at hlen; omega, ?_⟩
    simp [Expression.tokens, climb, hnot, Token.Kind.operandForm?, operand, hk]
  | binary l t op r ihl ihr =>
    rintro m level n rest ⟨hop, hm, hl, hr⟩ hlevel hloose hlen
    simp only [Expression.tokens, List.cons_append, List.append_assoc, List.length_append,
      List.length_cons] at hlen
    -- the left operand is read first; `t` does not bind more tightly than its operators
    obtain ⟨k, hk, hleft⟩ := ihl op.level level n (t :: (r.tokens ++ rest)) hl
      (Level.le_trans hlevel hm)
      (by intro t' ht' op' hop'; cases ht'; rw [hop] at hop'; cases hop'; exact Level.le_refl _)
      (by simp only [List.length_append, List.length_cons]; omega)
    simp only [List.length_cons, List.length_append] at hk
    obtain ⟨k, rfl⟩ : ∃ k', k = k' + 1 := ⟨k - 1, by omega⟩
    obtain ⟨n, rfl⟩ : ∃ n', n = n' + 1 := ⟨n - 1, by omega⟩
    have hstop : StopsAt op.level.tighter rest := hloose.stopsAt hm
    obtain ⟨k', -, hright⟩ := ihr _ op.level.tighter n rest hr (Level.le_refl _)
      (fun t' ht' op' hop' =>
        Level.le_trans (hloose t' ht' op' hop') (Level.le_trans hm (Nat.le_of_lt op.lt_tighter)))
      (by simp only [List.length_append]; omega)
    rw [operations_of_stopsAt _ _ _ hstop] at hright
    refine ⟨k, by omega, ?_⟩
    simp only [Expression.tokens, List.append_assoc, List.cons_append]
    rw [hleft]
    simp only [operations, hop, if_pos (Level.le_trans hlevel hm), hright, Option.bind_eq_bind,
      Option.bind_some]

theorem expression_complete {e : Expression} {rest : List Token} (h : e.Grammatical .or)
    (hrest : NoOperator rest) : expression (e.tokens ++ rest) = some (e, rest) := by
  obtain ⟨k, -, hk⟩ := climb_complete e .or .or _ rest h (Level.le_refl _)
    (fun t ht op hop => absurd hop (by rw [hrest t ht]; simp)) (Nat.le_refl _)
  rw [expression, hk, operations_of_stopsAt _ _ _ (hrest.stopsAt _)]

mutual

theorem statement_complete : ∀ (s : Statement) {inLoop : Bool} {n : Nat} {rest : List Token},
    s.Grammatical inLoop → NoOperator rest → (s.tokens ++ rest).length ≤ n + 1 →
    statement (block n) inLoop n (s.tokens ++ rest) = some (s, rest)
  | .assign target name arrow value, inLoop, n, rest, h, hrest, _ => by
    simp only [Statement.Grammatical, Token.Assigns] at h
    obtain ⟨⟨hkind, hname⟩, harrow, hvalue⟩ := h
    have hread : assignment target (arrow :: (value.tokens ++ rest)) =
        some (.assign target name arrow value, rest) := by
      simp [assignment, hname, token_cons harrow, expression_complete hvalue hrest]
    rcases hkind with hk | hk <;> simpa [Statement.tokens, statement, hk] using hread
  | .choice found closer, inLoop, n, rest, h, _, hlen => by
    simp only [Statement.Grammatical] at h
    obtain ⟨hgram, hcloser⟩ := h
    simp only [Statement.tokens, List.append_assoc, List.cons_append, List.nil_append] at hlen ⊢
    obtain ⟨keyword, ts, hts, hk, hread⟩ := arms_complete found hgram
      (⟨closer, rest, rfl, hcloser⟩ : BeginsWith (.keyword .endIf) (closer :: rest)) hlen hlen
    simp only [hts, List.cons_append, statement, hk, choice, hread, token_cons hcloser,
      Option.bind_eq_bind, Option.bind_some, Option.pure_def]
  | .loop keyword count times body closer, inLoop, n, rest, h, _, hlen => by
    simp only [Statement.Grammatical] at h
    obtain ⟨hk, hcount, htimes, hbody, hcloser⟩ := h
    simp only [Statement.tokens, List.append_assoc, List.cons_append, List.nil_append,
      List.length_cons, List.length_append] at hlen ⊢
    have hexpr := expression_complete hcount
      (noOperator_cons htimes rfl (Block.tokens body ++ closer :: rest))
    have hblock := block_complete body (n := n) hbody (.cons hcloser rfl rest)
      (by simp only [List.length_append, List.length_cons]; omega)
    simp only [statement, hk, loop, hexpr, token_cons htimes, hblock, token_cons hcloser,
      Option.bind_eq_bind, Option.bind_some, Option.pure_def]
  | .abort token, inLoop, n, rest, h, _, _ => by
    simp only [Statement.Grammatical] at h
    simp [Statement.tokens, statement, h.1, h.2]

theorem arms_complete : ∀ (a : Arms) {inLoop : Bool} {n k : Nat} {rest : List Token},
    a.Grammatical inLoop → BeginsWith (.keyword .endIf) rest →
    (a.tokens ++ rest).length ≤ n + 1 → (a.tokens ++ rest).length ≤ k + 1 →
    ∃ keyword ts, a.tokens = keyword :: ts ∧ keyword.kind = .keyword .ifWord ∧
      arms (block n inLoop) k keyword (ts ++ rest) = some (a, rest)
  | .last keyword condition thenWord body elseWord alternative, inLoop, n, k, rest, h, hrest, hn,
      hk => by
    simp only [Arms.Grammatical] at h
    obtain ⟨hkey, hcond, hthen, hbody, halt, helse⟩ := h
    refine ⟨keyword, condition.tokens ++ thenWord :: (Block.tokens body ++ (elseWord.toList ++
      Block.tokens alternative)), by simp [Arms.tokens], hkey, ?_⟩
    simp only [Arms.tokens, List.append_assoc, List.cons_append, List.length_cons,
      List.length_append] at hn hk ⊢
    obtain ⟨k, rfl⟩ : ∃ k', k = k' + 1 := ⟨k - 1, by omega⟩
    have hexpr := expression_complete hcond (noOperator_cons hthen rfl
      (Block.tokens body ++ (elseWord.toList ++ (Block.tokens alternative ++ rest))))
    have hclose : BeginsWithCloser rest := by
      obtain ⟨t, ts, rfl, ht⟩ := hrest
      exact .cons ht rfl ts
    cases elseWord with
    | none =>
      simp only at helse
      subst helse
      simp only [Option.toList_none, List.nil_append, Block.tokens, List.length_nil] at hexpr hn ⊢
      have hblock := block_complete body (n := n) hbody hclose
        (by simp only [List.length_append]; omega)
      have hnone : token (.keyword .elseWord) rest = none := token_eq_none hrest (by decide)
      simp only [arms, hexpr, token_cons hthen, hblock, hnone, Option.bind_eq_bind,
        Option.bind_some, Option.pure_def]
    | some word =>
      simp only at helse
      obtain ⟨hword, hhead⟩ := helse
      simp only [Option.toList_some, List.singleton_append, List.length_singleton] at hexpr hn ⊢
      have hblock := block_complete body (n := n) hbody
        (.cons hword rfl (Block.tokens alternative ++ rest))
        (by simp only [List.length_append, List.length_cons]; omega)
      have hblock' := block_complete alternative (n := n) halt hclose
        (by simp only [List.length_append]; omega)
      have hif : token (.keyword .ifWord) (Block.tokens alternative ++ rest) = none := by
        cases hts : Block.tokens alternative with
        | nil => exact token_eq_none hrest (by decide)
        | cons t ts =>
          have ht := hhead t (by rw [hts]; rfl)
          simp [token, ht]
      simp only [arms, hexpr, token_cons hthen, hblock, token_cons hword, hif, hblock',
        Option.bind_eq_bind, Option.bind_some, Option.pure_def]
  | .elseIf keyword condition thenWord body elseWord more, inLoop, n, k, rest, h, hrest, hn, hk => by
    simp only [Arms.Grammatical] at h
    obtain ⟨hkey, hcond, hthen, hbody, helse, hmore⟩ := h
    refine ⟨keyword, condition.tokens ++ thenWord :: (Block.tokens body ++ elseWord :: more.tokens),
      by simp [Arms.tokens], hkey, ?_⟩
    simp only [Arms.tokens, List.append_assoc, List.cons_append, List.length_cons,
      List.length_append] at hn hk ⊢
    obtain ⟨k, rfl⟩ : ∃ k', k = k' + 1 := ⟨k - 1, by omega⟩
    have hexpr := expression_complete hcond (noOperator_cons hthen rfl
      (Block.tokens body ++ (elseWord :: (more.tokens ++ rest))))
    have hblock := block_complete body (n := n) hbody (.cons helse rfl (more.tokens ++ rest))
      (by simp only [List.length_append, List.length_cons]; omega)
    obtain ⟨follower, ts, hts, hfollower, hread⟩ := arms_complete more (n := n) (k := k) hmore hrest
      (by simp only [List.length_append]; omega) (by simp only [List.length_append]; omega)
    simp only [hts, List.cons_append] at hexpr hblock ⊢
    simp only [arms, hexpr, token_cons hthen, hblock, token_cons helse, token_cons hfollower, hread,
      Option.bind_eq_bind, Option.bind_some, Option.pure_def]

theorem block_complete : ∀ (ss : List Statement) {inLoop : Bool} {n : Nat} {rest : List Token},
    Block.Grammatical inLoop ss → BeginsWithCloser rest →
    (Block.tokens ss ++ rest).length ≤ n →
    block n inLoop (Block.tokens ss ++ rest) = some (ss, rest)
  | [], inLoop, n, rest, _, hrest, hlen => by
    obtain ⟨t, ts, rfl, ht⟩ := hrest
    simp only [Block.tokens, List.nil_append, List.length_cons] at hlen ⊢
    obtain ⟨n, rfl⟩ : ∃ n', n = n' + 1 := ⟨n - 1, by omega⟩
    simp [block, ht]
  | s :: ss, inLoop, n, rest, h, hrest, hlen => by
    obtain ⟨hs, hss⟩ := h
    obtain ⟨t, ts, hts, -, hclose⟩ := Statement.tokens_eq_cons hs
    simp only [Block.tokens, List.append_assoc] at hlen ⊢
    obtain ⟨n, rfl⟩ : ∃ n', n = n' + 1 :=
      ⟨n - 1, by simp only [hts, List.cons_append, List.length_cons] at hlen; omega⟩
    have hstatement := statement_complete s (n := n) hs
      (Block.noOperator_tokens_append hss hrest.noOperator) (by omega)
    have hblock := block_complete ss (n := n) hss hrest (by
      simp only [hts, List.cons_append, List.length_cons, List.length_append] at hlen ⊢; omega)
    simp only [hts, List.cons_append] at hstatement ⊢
    simp only [block, hclose, hstatement, hblock, Bool.false_eq_true, if_false,
      Option.bind_eq_bind, Option.bind_some, Option.pure_def]

end

theorem program_complete : ∀ (p : Program) {n : Nat}, Block.Grammatical false p →
    (Block.tokens p).length < n → program n (Block.tokens p) = some (p, [])
  | [], n, _, hlen => by
    obtain ⟨n, rfl⟩ : ∃ n', n = n' + 1 := ⟨n - 1, by omega⟩
    rfl
  | s :: ss, n, h, hlen => by
    obtain ⟨hs, hss⟩ := h
    obtain ⟨t, ts, hts, -⟩ := Statement.tokens_eq_cons hs
    obtain ⟨n, rfl⟩ : ∃ n', n = n' + 1 := ⟨n - 1, by omega⟩
    simp only [Block.tokens] at hlen ⊢
    have hrest : NoOperator (Block.tokens ss) := by
      rw [← List.append_nil (Block.tokens ss)]
      exact Block.noOperator_tokens_append hss (by simp [NoOperator])
    have hstatement := statement_complete s (n := n) hs hrest (by omega)
    have hprogram := program_complete ss (n := n) hss (by
      simp only [hts, List.cons_append, List.length_cons, List.length_append] at hlen ⊢; omega)
    simp only [hts, List.cons_append] at hstatement ⊢
    simp only [program, hstatement, hprogram, Option.bind_eq_bind, Option.bind_some,
      Option.pure_def]

/-- The reader reads exactly the trees of the grammar. -/
theorem program_eq_some_iff {n : Nat} {ts rest : List Token} {p : Program} (hlen : ts.length < n) :
    program n ts = some (p, rest) ↔
      ts = Block.tokens p ∧ rest = [] ∧ Block.Grammatical false p := by
  constructor
  · exact program_sound n
  · rintro ⟨rfl, rfl, h⟩
    exact program_complete p h hlen

end Read

/-- A token sequence has at most one tree. -/
theorem Program.Parses.unique {p q : Program} {tokens : List Token} (hp : p.Parses tokens)
    (hq : q.Parses tokens) : p = q := by
  obtain ⟨hp, _, -, rfl⟩ := hp
  obtain ⟨hq, _, -, h⟩ := hq
  have heq : Block.tokens p = Block.tokens q := (List.append_inj' h rfl).1
  have hread := Read.program_complete p hp (Nat.lt_succ_self _)
  rw [heq, Read.program_complete q hq (by simp)] at hread
  cases hread
  rfl

end BoundedLoop
