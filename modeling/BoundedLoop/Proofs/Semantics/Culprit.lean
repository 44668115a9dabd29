import BoundedLoop.Proofs.Semantics.Evaluation

/-!
# Where an evaluation fails

`Block.culprit` is the token at which the evaluation of a block fails, if it fails: the variable that
is read and holds nothing, or the operator whose result is too large. It goes with the reason of the
failure (`Block.culprit_of_eval`).
-/

namespace BoundedLoop

/-- The failure is one of the operation that the token stands for. -/
def Failure.At : Failure → Token → Prop
  | overflow op, t =>
    (op = .add ∧ t.kind = .symbol .plus) ∨ (op = .multiply ∧ t.kind = .symbol .star)
  | unset name, t => t.Reads name
  | stuck, _ => False

/-- The token at which the evaluation of an expression fails, if it fails: the first operand that has
no value is to blame, and the operator only if both have one. -/
def Expression.culprit (σ : Store) : Expression → Token
  | constant t _ | reference t _ => t
  | group _ e _ | negation _ e => e.culprit σ
  | binary l t _ r =>
    match l.eval σ, r.eval σ with
    | .error _, _ => l.culprit σ
    | .ok _, .error _ => r.culprit σ
    | .ok _, .ok _ => t

/-- The token at which the repetition of a body fails, if it fails. -/
def iterateCulprit (body : Store → Except Failure (Flow × Store)) (culprit : Store → Option Token) :
    Nat → Store → Option Token
  | 0, _ => none
  | n + 1, σ =>
    match body σ with
    | .error _ => culprit σ
    | .ok (.next, σ) => iterateCulprit body culprit n σ
    | .ok (.abort, _) => none

mutual

/-- The token at which the evaluation of a statement fails, if it fails. -/
def Statement.culprit (σ : Store) : Statement → Option Token
  | .assign _ _ _ value => some (value.culprit σ)
  | .choice arms _ => arms.culprit σ
  | .loop _ count _ body _ =>
    match count.eval σ with
    | .ok (.number n) =>
      iterateCulprit (fun σ => Block.eval σ body) (fun σ => Block.culprit σ body) n.toInt.toNat σ
    | _ => some (count.culprit σ)
  | .abort _ => none

def Arms.culprit (σ : Store) : Arms → Option Token
  | .last _ condition _ body _ alternative =>
    match condition.eval σ with
    | .ok (.boolean b) => if b then Block.culprit σ body else Block.culprit σ alternative
    | _ => some (condition.culprit σ)
  | .elseIf _ condition _ body _ rest =>
    match condition.eval σ with
    | .ok (.boolean b) => if b then Block.culprit σ body else rest.culprit σ
    | _ => some (condition.culprit σ)

def Block.culprit (σ : Store) : List Statement → Option Token
  | [] => none
  | s :: ss =>
    match s.eval σ with
    | .ok (.next, σ) => Block.culprit σ ss
    | .ok (.abort, _) => none
    | .error _ => s.culprit σ

end

theorem eq_error_of_bind_ok {α β : Type} {r : Except Failure α} {g : α → β} {why : Failure}
    (h : (r >>= fun a => (.ok (g a) : Except Failure β)) = .error why) : r = .error why := by
  cases r with
  | error why' =>
    cases h
    rfl
  | ok a => cases h

/-! ### Expressions -/

theorem eq_overflow_of_exactResult {op : Opcode} {x : Int} {why : Failure}
    (h : exactResult op x = .error why) : why = .overflow op := by
  unfold exactResult at h
  split at h
  · cases h
  · exact (Except.error.inj h).symm

/-- Only sums and products can fail without being stuck. -/
theorem BinaryOp.apply_eq_error {op : BinaryOp} {l r : Value} {why : Failure}
    (h : op.apply l r = .error why) :
    why = .stuck ∨ (op = .plus ∧ why = .overflow .add) ∨ (op = .star ∧ why = .overflow .multiply) := by
  cases op with
  | plus =>
    rcases l with l | l <;> rcases r with r | r
    · exact .inr (.inl ⟨rfl, eq_overflow_of_exactResult h⟩)
    all_goals exact .inl (Except.error.inj h).symm
  | star =>
    rcases l with l | l <;> rcases r with r | r
    · exact .inr (.inr ⟨rfl, eq_overflow_of_exactResult h⟩)
    all_goals exact .inl (Except.error.inj h).symm
  | equal =>
    simp only [apply] at h
    split at h
    · cases h
    · exact .inl (Except.error.inj h).symm
  | or | and => exact .inl (Except.error.inj h).symm
  | _ =>
    rcases l with l | l <;> rcases r with r | r
    · cases h
    all_goals exact .inl (Except.error.inj h).symm

/-- Each operator is written in one way. -/
theorem Token.Kind.binaryOp?_inj {k k' : Kind} {op : BinaryOp} (h : k.binaryOp? = some op)
    (h' : k'.binaryOp? = some op) : k = k' := by
  unfold binaryOp? at h h'
  split at h <;> cases h <;> split at h' <;> first | rfl | cases h'

theorem BinaryOp.at_of_apply {op : BinaryOp} {t : Token} {l r : Value} {why : Failure}
    (ht : t.kind.binaryOp? = some op) (h : op.apply l r = .error why) (hwhy : why ≠ .stuck) :
    why.At t := by
  rcases apply_eq_error h with rfl | ⟨rfl, rfl⟩ | ⟨rfl, rfl⟩
  · exact absurd rfl hwhy
  · exact .inl ⟨rfl, Token.Kind.binaryOp?_inj ht rfl⟩
  · exact .inr ⟨rfl, Token.Kind.binaryOp?_inj ht rfl⟩

/-- If both operands have a value, a failure is one of the operator itself. -/
theorem Expression.apply_of_eval {σ : Store} {l r : Expression} {t : Token} {op : BinaryOp}
    {a b : Value} {why : Failure} (ha : l.eval σ = .ok a) (hb : r.eval σ = .ok b)
    (h : (binary l t op r).eval σ = .error why) (hwhy : why ≠ .stuck) :
    op.apply a b = .error why := by
  cases op with
  | or | and =>
    -- operators that jump can only get stuck
    simp only [eval, ha, hb] at h
    rcases a with n | _ | _ <;> rcases b with m | _ | _ <;> cases h
    all_goals exact absurd rfl hwhy
  | _ =>
    simp only [eval, ha, hb] at h
    exact h

theorem Expression.eval_binary_of_error {σ : Store} {l r : Expression} {t : Token} {op : BinaryOp}
    {why : Failure} (h : l.eval σ = .error why) : (binary l t op r).eval σ = .error why := by
  cases op <;> simp only [eval, h] <;> rfl

/-- If the left operand has a value, and the evaluation fails where the right one does, it fails for
the same reason. -/
theorem Expression.eval_right {σ : Store} {l r : Expression} {t : Token} {op : BinaryOp} {a : Value}
    {why why' : Failure} (ha : l.eval σ = .ok a) (hr : r.eval σ = .error why')
    (h : (binary l t op r).eval σ = .error why) (hwhy : why ≠ .stuck) : why = why' := by
  cases op with
  | or | and =>
    simp only [eval, ha, hr] at h
    rcases a with n | _ | _ <;> cases h
    all_goals first | rfl | exact absurd rfl hwhy
  | _ =>
    simp only [eval, ha, hr] at h
    exact (Except.error.inj h).symm

theorem Expression.culprit_of_left {σ : Store} {l r : Expression} {t : Token} {op : BinaryOp}
    {why : Failure} (h : l.eval σ = .error why) : (binary l t op r).culprit σ = l.culprit σ := by
  rw [culprit, h]

theorem Expression.culprit_of_right {σ : Store} {l r : Expression} {t : Token} {op : BinaryOp}
    {a : Value} {why : Failure} (hl : l.eval σ = .ok a) (hr : r.eval σ = .error why) :
    (binary l t op r).culprit σ = r.culprit σ := by
  rw [culprit, hl, hr]

theorem Expression.culprit_of_ok {σ : Store} {l r : Expression} {t : Token} {op : BinaryOp}
    {a b : Value} (hl : l.eval σ = .ok a) (hr : r.eval σ = .ok b) :
    (binary l t op r).culprit σ = t := by
  rw [culprit, hl, hr]

/-- The token to blame is one of the expression, and it stands for what has failed. -/
theorem Expression.culprit_of_eval {σ : Store} {e : Expression} {level : Level} {why : Failure}
    (hgram : e.Grammatical level) (h : e.eval σ = .error why) (hwhy : why ≠ .stuck) :
    e.culprit σ ∈ e.tokens ∧ why.At (e.culprit σ) := by
  induction e generalizing level why with
  | constant t v => cases h
  | reference t name =>
    simp only [eval] at h
    split at h
    · cases h
    · cases h
      exact ⟨List.mem_singleton_self t, hgram⟩
  | group opening e closing ih =>
    obtain ⟨hmem, hat⟩ := ih hgram.2.1 h hwhy
    exact ⟨List.mem_cons_of_mem _ (List.mem_append_left _ hmem), hat⟩
  | negation t e ih =>
    simp only [eval] at h
    cases he : e.eval σ with
    | error why' =>
      rw [he] at h
      cases h
      obtain ⟨hmem, hat⟩ := ih hgram.2 he hwhy
      exact ⟨List.mem_cons_of_mem _ hmem, hat⟩
    | ok v =>
      rw [he] at h
      rcases v with n | b <;> cases h
      exact absurd rfl hwhy
  | binary l t op r ihl ihr =>
    obtain ⟨ht, -, hgl, hgr⟩ := hgram
    rw [tokens, List.mem_append, List.mem_cons]
    cases hl : l.eval σ with
    | error why' =>
      rw [eval_binary_of_error hl] at h
      cases h
      obtain ⟨hmem, hat⟩ := ihl hgl hl hwhy
      rw [culprit_of_left hl]
      exact ⟨.inl hmem, hat⟩
    | ok a =>
      cases hr : r.eval σ with
      | error why' =>
        obtain rfl := eval_right hl hr h hwhy
        obtain ⟨hmem, hat⟩ := ihr hgr hr hwhy
        rw [culprit_of_right hl hr]
        exact ⟨.inr (.inr hmem), hat⟩
      | ok b =>
        rw [culprit_of_ok hl hr]
        exact ⟨.inr (.inl rfl), BinaryOp.at_of_apply ht (apply_of_eval hl hr h hwhy) hwhy⟩

/-! ### Statements -/

/-- A failure is blamed on one of the tokens, which stands for what has failed. -/
def Failure.On (why : Failure) (culprit : Option Token) (tokens : List Token) : Prop :=
  ∃ t ∈ tokens, culprit = some t ∧ why.At t

theorem Failure.On.mono {why : Failure} {culprit : Option Token} {tokens tokens' : List Token}
    (h : why.On culprit tokens) (hsub : tokens ⊆ tokens') : why.On culprit tokens' := by
  obtain ⟨t, ht, hculprit, hat⟩ := h
  exact ⟨t, hsub ht, hculprit, hat⟩

theorem on_iterateCulprit {body : Store → Except Failure (Flow × Store)}
    {culprit : Store → Option Token} {tokens : List Token} {why : Failure}
    (hbody : ∀ σ, body σ = .error why → why.On (culprit σ) tokens) (n : Nat) {σ : Store}
    (h : iterate body n σ = .error why) : why.On (iterateCulprit body culprit n σ) tokens := by
  induction n generalizing σ with
  | zero => cases h
  | succ n ih =>
    simp only [iterate] at h
    simp only [iterateCulprit]
    cases hσ : body σ with
    | error why' =>
      rw [hσ] at h
      cases h
      exact hbody σ hσ
    | ok r =>
      obtain ⟨flow, σ'⟩ := r
      rw [hσ] at h
      cases flow with
      | next => exact ih h
      | abort => cases h

theorem Expression.on_culprit {σ : Store} {e : Expression} {why : Failure} {tokens : List Token}
    (hgram : e.Grammatical .or) (h : e.eval σ = .error why) (hwhy : why ≠ .stuck)
    (hsub : e.tokens ⊆ tokens) : why.On (some (e.culprit σ)) tokens := by
  obtain ⟨hmem, hat⟩ := culprit_of_eval hgram h hwhy
  exact ⟨_, hsub hmem, rfl, hat⟩

/-- An arm fails in its condition, in its body, or in what follows it. -/
theorem Arms.on_culprit_arm {σ : Store} {condition : Expression} {why : Failure}
    {tokens : List Token} {r r' : Except Failure (Flow × Store)} {culprit culprit' : Option Token}
    (hgram : condition.Grammatical .or) (hsub : condition.tokens ⊆ tokens)
    (htrue : r = .error why → why.On culprit tokens)
    (hfalse : r' = .error why → why.On culprit' tokens)
    (h : (do
      let b ← (← condition.eval σ).truth
      if b then r else r') = .error why) (hwhy : why ≠ .stuck) :
    why.On (match condition.eval σ with
      | .ok (.boolean b) => if b then culprit else culprit'
      | _ => some (condition.culprit σ)) tokens := by
  cases hcondition : condition.eval σ with
  | error why' =>
    rw [hcondition] at h
    cases h
    exact condition.on_culprit hgram hcondition hwhy hsub
  | ok v =>
    rw [hcondition] at h
    rcases v with n | _ | _
    · cases h
      exact absurd rfl hwhy
    · exact hfalse h
    · exact htrue h

mutual

theorem Statement.culprit_of_eval : ∀ (s : Statement) {inLoop : Bool} {σ : Store} {why : Failure},
    s.Grammatical inLoop → s.eval σ = .error why → why ≠ .stuck → why.On (s.culprit σ) s.tokens
  | .assign target name arrow value, inLoop, σ, why, hgram, h, hwhy => by
    refine value.on_culprit hgram.2.2 (eq_error_of_bind_ok h) hwhy fun t ht => ?_
    simp [Statement.tokens, ht]
  | .choice arms closer, inLoop, σ, why, hgram, h, hwhy =>
    (arms.culprit_of_eval hgram.1 h hwhy).mono (List.subset_append_left _ _)
  | .loop keyword count times body closer, inLoop, σ, why, hgram, h, hwhy => by
    simp only [Statement.eval] at h
    rw [Statement.culprit]
    cases hcount : count.eval σ with
    | error why' =>
      rw [hcount] at h
      cases h
      refine count.on_culprit hgram.2.1 hcount hwhy fun t ht => ?_
      simp [Statement.tokens, ht]
    | ok v =>
      rw [hcount] at h
      cases v with
      | boolean b =>
        cases h
        exact absurd rfl hwhy
      | number n =>
        have hbody : ∀ σ, Block.eval σ body = .error why →
            why.On (Block.culprit σ body) (Block.tokens body) := fun σ hσ =>
          Block.culprit_of_eval body hgram.2.2.2.1 hσ hwhy
        refine (on_iterateCulprit hbody _ (eq_error_of_bind_ok h)).mono fun t ht => ?_
        simp [Statement.tokens, ht]
  | .abort token, inLoop, σ, why, hgram, h, hwhy => by cases h

theorem Arms.culprit_of_eval : ∀ (a : Arms) {inLoop : Bool} {σ : Store} {why : Failure},
    a.Grammatical inLoop → a.eval σ = .error why → why ≠ .stuck → why.On (a.culprit σ) a.tokens
  | .last keyword condition thenWord body elseWord alternative, inLoop, σ, why, hgram, h, hwhy => by
    refine Arms.on_culprit_arm hgram.2.1 (fun t ht => ?_) (fun h => ?_) (fun h => ?_) h hwhy
    · simp [Arms.tokens, ht]
    · refine (Block.culprit_of_eval body hgram.2.2.2.1 h hwhy).mono fun t ht => ?_
      simp [Arms.tokens, ht]
    · refine (Block.culprit_of_eval alternative hgram.2.2.2.2.1 h hwhy).mono fun t ht => ?_
      simp [Arms.tokens, ht]
  | .elseIf keyword condition thenWord body elseWord rest, inLoop, σ, why, hgram, h, hwhy => by
    refine Arms.on_culprit_arm hgram.2.1 (fun t ht => ?_) (fun h => ?_) (fun h => ?_) h hwhy
    · simp [Arms.tokens, ht]
    · refine (Block.culprit_of_eval body hgram.2.2.2.1 h hwhy).mono fun t ht => ?_
      simp [Arms.tokens, ht]
    · refine (rest.culprit_of_eval hgram.2.2.2.2.2 h hwhy).mono fun t ht => ?_
      simp [Arms.tokens, ht]

/-- If the evaluation of a block fails and does not get stuck, there is a token to blame, and it stands
for what has failed. -/
theorem Block.culprit_of_eval : ∀ (ss : List Statement) {inLoop : Bool} {σ : Store} {why : Failure},
    Block.Grammatical inLoop ss → Block.eval σ ss = .error why → why ≠ .stuck →
    why.On (Block.culprit σ ss) (Block.tokens ss)
  | [], inLoop, σ, why, hgram, h, hwhy => by cases h
  | s :: ss, inLoop, σ, why, hgram, h, hwhy => by
    simp only [Block.eval] at h
    rw [Block.culprit]
    cases hs : s.eval σ with
    | error why' =>
      rw [hs] at h
      cases h
      exact (s.culprit_of_eval hgram.1 hs hwhy).mono (List.subset_append_left _ _)
    | ok r =>
      obtain ⟨flow, σ'⟩ := r
      rw [hs] at h
      cases flow with
      | next => exact (Block.culprit_of_eval ss hgram.2 h hwhy).mono (List.subset_append_right _ _)
      | abort => cases h

end

end BoundedLoop
