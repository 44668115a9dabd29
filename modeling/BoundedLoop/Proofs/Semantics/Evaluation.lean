import BoundedLoop.Bytecode.Opcode
import BoundedLoop.Proofs.Syntax.Rules

/-!
# What programs mean

`Program.eval` runs the tree of a program directly: operands from left to right, statements one
after the other, and a loop as often as its count says. It always comes to an end, with the value of
`OUTPUT` or with a failure.

`Block.safe_eval`: a program that is well typed never gets stuck.
-/

namespace BoundedLoop

/-- What the variables hold; `none` as long as nothing was assigned. -/
abbrev Store := String → Option Value

/-- Why an evaluation fails. It is `stuck` at an operand of the wrong type. -/
inductive Failure where
  | overflow (op : Opcode)
  | unset (name : String)
  | stuck
deriving DecidableEq

/-! ### Expressions -/

namespace Value

def truth : Value → Except Failure Bool
  | boolean b => .ok b
  | number _ => .error .stuck

def count : Value → Except Failure Int64
  | number n => .ok n
  | boolean _ => .error .stuck

end Value

/-- The number equal to `x`, which is the result of `op`. -/
def exactResult (op : Opcode) (x : Int) : Except Failure Value :=
  match exact64? x with
  | some n => .ok (.number n)
  | none => .error (.overflow op)

/-- The value of an operator that takes both operands. -/
def BinaryOp.apply : BinaryOp → Value → Value → Except Failure Value
  | equal, l, r => if l.ty = r.ty then .ok (.boolean (l = r)) else .error .stuck
  | less, .number l, .number r => .ok (.boolean (l < r))
  | lessEqual, .number l, .number r => .ok (.boolean (l ≤ r))
  | greater, .number l, .number r => .ok (.boolean (r < l))
  | greaterEqual, .number l, .number r => .ok (.boolean (r ≤ l))
  | plus, .number l, .number r => exactResult .add (l.toInt + r.toInt)
  | star, .number l, .number r => exactResult .multiply (l.toInt * r.toInt)
  | _, _, _ => .error .stuck

/-- The value of an expression. The right operand of `and` and `or` is not evaluated if the left one
decides. -/
def Expression.eval (σ : Store) : Expression → Except Failure Value
  | constant _ v => .ok v
  | reference _ name =>
    match σ name with
    | some v => .ok v
    | none => .error (.unset name)
  | group _ e _ => e.eval σ
  | negation _ e => do
    let b ← (← e.eval σ).truth
    return .boolean !b
  | binary l _ .or r => do
    let b ← (← l.eval σ).truth
    if b then return .boolean true
    let b ← (← r.eval σ).truth
    return .boolean b
  | binary l _ .and r => do
    let b ← (← l.eval σ).truth
    if !b then return .boolean false
    let b ← (← r.eval σ).truth
    return .boolean b
  | binary l _ op r => do
    let left ← l.eval σ
    let right ← r.eval σ
    op.apply left right

theorem Expression.eval_strict {op : BinaryOp} (hor : op ≠ .or) (hand : op ≠ .and) (σ : Store)
    (l : Expression) (t : Token) (r : Expression) :
    (binary l t op r).eval σ =
      (l.eval σ >>= fun left => r.eval σ >>= fun right => op.apply left right) := by
  cases op with
  | or => exact absurd rfl hor
  | and => exact absurd rfl hand
  | _ => rfl

/-! ### Statements -/

/-- How a statement is left: for the next one, or out of the innermost loop. -/
inductive Flow where
  | next
  | abort
deriving DecidableEq

/-- Runs the body of a loop `n` times, or until it is aborted. -/
def iterate (body : Store → Except Failure (Flow × Store)) : Nat → Store → Except Failure Store
  | 0, σ => .ok σ
  | n + 1, σ => do
    match ← body σ with
    | (.next, σ) => iterate body n σ
    | (.abort, σ) => return σ

mutual

/-- What a statement makes of the variables. -/
def Statement.eval (σ : Store) : Statement → Except Failure (Flow × Store)
  | .assign _ name _ value => do
    let v ← value.eval σ
    return (.next, Function.update σ name (some v))
  | .choice arms _ => arms.eval σ
  | .loop _ count _ body _ => do
    let n ← (← count.eval σ).count
    -- a negative count is as good as none
    let σ ← iterate (fun σ => Block.eval σ body) n.toInt.toNat σ
    return (.next, σ)
  | .abort _ => .ok (.abort, σ)

def Arms.eval (σ : Store) : Arms → Except Failure (Flow × Store)
  | .last _ condition _ body _ alternative => do
    let b ← (← condition.eval σ).truth
    if b then Block.eval σ body else Block.eval σ alternative
  | .elseIf _ condition _ body _ rest => do
    let b ← (← condition.eval σ).truth
    if b then Block.eval σ body else rest.eval σ

def Block.eval (σ : Store) : List Statement → Except Failure (Flow × Store)
  | [] => .ok (.next, σ)
  | s :: ss => do
    match ← s.eval σ with
    | (.next, σ) => Block.eval σ ss
    | (.abort, σ) => return (.abort, σ)

end

/-- What `OUTPUT` holds in the end. No variable holds anything in the beginning. -/
def Program.eval (p : Program) : Except Failure Value := do
  let (_, σ) ← Block.eval (fun _ => none) p
  match σ Token.outputName with
  | some v => return v
  | none => .error (.unset Token.outputName)

/-! ### Well-typed programs do not get stuck -/

/-- An evaluation that does not get stuck, and whose result satisfies `post`. -/
def Safe {α : Type} (post : α → Prop) : Except Failure α → Prop
  | .ok a => post a
  | .error f => f ≠ .stuck

theorem Safe.bind {α β : Type} {post : α → Prop} {post' : β → Prop} {r : Except Failure α}
    {f : α → Except Failure β} (h : Safe post r) (hf : ∀ a, post a → Safe post' (f a)) :
    Safe post' (r >>= f) := by
  cases r with
  | ok a => exact hf a h
  | error e => exact h

/-- Every variable holds a value of its type, if it holds one. -/
def Store.Typed (Γ : String → Ty) (σ : Store) : Prop :=
  ∀ name v, σ name = some v → v.ty = Γ name

theorem Store.Typed.update {Γ : String → Ty} {σ : Store} {name : String} {v : Value}
    (h : σ.Typed Γ) (hv : v.ty = Γ name) : Store.Typed Γ (Function.update σ name (some v)) := by
  intro other w hw
  by_cases ho : other = name
  · subst ho
    rw [Function.update_self] at hw
    cases hw
    exact hv
  · rw [Function.update_of_ne ho] at hw
    exact h other w hw

theorem Value.safe_truth {v : Value} (h : v.ty = .boolean) : Safe (fun _ => True) v.truth := by
  cases v with
  | boolean b => trivial
  | number n => cases h

theorem Value.safe_count {v : Value} (h : v.ty = .number) : Safe (fun _ => True) v.count := by
  cases v with
  | number n => trivial
  | boolean b => cases h

theorem safe_exactResult (op : Opcode) (x : Int) :
    Safe (fun v => v.ty = .number) (exactResult op x) := by
  unfold exactResult
  split
  · rfl
  · exact nofun

theorem BinaryOp.safe_apply {op : BinaryOp} {l r : Value} {ty : Ty} (hor : op ≠ .or)
    (hand : op ≠ .and) (h : op.result? l.ty r.ty = some ty) :
    Safe (fun v => v.ty = ty) (op.apply l r) := by
  cases op with
  | or => exact absurd rfl hor
  | and => exact absurd rfl hand
  | equal =>
    simp only [result?] at h
    split at h
    · rename_i hty
      cases h
      rw [apply, if_pos hty]
      rfl
    · cases h
  | plus | star =>
    cases l <;> cases r <;> cases h
    exact safe_exactResult _ _
  | _ =>
    cases l <;> cases r <;> cases h
    rfl

theorem Expression.safe_eval {Γ : String → Ty} {σ : Store} (hσ : σ.Typed Γ) {e : Expression}
    {ty : Ty} (h : e.HasType Γ ty) : Safe (fun v => v.ty = ty) (e.eval σ) := by
  induction e generalizing ty with
  | constant t v => exact h
  | reference t name =>
    simp only [eval]
    split
    · rename_i v hv
      exact (hσ name v hv).trans h
    · exact nofun
  | group opening e closing ih => exact ih h
  | negation t e ih =>
    obtain ⟨he, rfl⟩ := h
    exact (ih he).bind fun v hv => (Value.safe_truth hv).bind fun b _ => rfl
  | binary l t op r ihl ihr =>
    obtain ⟨left, right, hl, hr, hop⟩ := h
    -- both operators that jump over the right operand take and give truth values
    have hlazy : op = .or ∨ op = .and → left = .boolean ∧ right = .boolean ∧ ty = .boolean := by
      rintro (rfl | rfl)
      all_goals cases left <;> cases right <;> cases hop
      all_goals exact ⟨rfl, rfl, rfl⟩
    by_cases hor : op = .or
    · subst hor
      obtain ⟨rfl, rfl, rfl⟩ := hlazy (.inl rfl)
      refine (ihl hl).bind fun v hv => (Value.safe_truth hv).bind fun b _ => ?_
      cases b with
      | true => rfl
      | false => exact (ihr hr).bind fun w hw => (Value.safe_truth hw).bind fun _ _ => rfl
    · by_cases hand : op = .and
      · subst hand
        obtain ⟨rfl, rfl, rfl⟩ := hlazy (.inr rfl)
        refine (ihl hl).bind fun v hv => (Value.safe_truth hv).bind fun b _ => ?_
        cases b with
        | true => exact (ihr hr).bind fun w hw => (Value.safe_truth hw).bind fun _ _ => rfl
        | false => rfl
      · rw [eval_strict hor hand]
        refine (ihl hl).bind fun v hv => (ihr hr).bind fun w hw => ?_
        subst hv hw
        exact BinaryOp.safe_apply hor hand hop

/-- If the body of a loop is safe in all stores with the right types, so is the loop. -/
theorem safe_iterate {Γ : String → Ty} {body : Store → Except Failure (Flow × Store)}
    (h : ∀ σ, Store.Typed Γ σ → Safe (fun r => Store.Typed Γ r.2) (body σ)) (n : Nat) {σ : Store}
    (hσ : σ.Typed Γ) : Safe (Store.Typed Γ) (iterate body n σ) := by
  induction n generalizing σ with
  | zero => exact hσ
  | succ n ih =>
    refine (h σ hσ).bind ?_
    rintro ⟨flow, σ'⟩ hσ'
    cases flow with
    | next => exact ih hσ'
    | abort => exact hσ'

mutual

theorem Statement.safe_eval {Γ : String → Ty} : ∀ (s : Statement) {σ : Store}, σ.Typed Γ →
    s.WellTyped Γ → Safe (fun r => Store.Typed Γ r.2) (s.eval σ)
  | .assign target name arrow value, σ, hσ, h =>
    (Expression.safe_eval hσ h).bind fun _ hv => hσ.update hv
  | .choice arms closer, σ, hσ, h => arms.safe_eval hσ h
  | .loop keyword count times body closer, σ, hσ, h => by
    refine (Expression.safe_eval hσ h.1).bind fun v hv => (Value.safe_count hv).bind fun n _ => ?_
    exact (safe_iterate (fun σ hσ => Block.safe_eval body hσ h.2) _ hσ).bind fun _ hσ' => hσ'
  | .abort token, σ, hσ, h => hσ

theorem Arms.safe_eval {Γ : String → Ty} : ∀ (a : Arms) {σ : Store}, σ.Typed Γ →
    a.WellTyped Γ → Safe (fun r => Store.Typed Γ r.2) (a.eval σ)
  | .last keyword condition thenWord body elseWord alternative, σ, hσ, h => by
    refine (Expression.safe_eval hσ h.1.1).bind fun v hv => (Value.safe_truth hv).bind fun b _ => ?_
    cases b with
    | true => exact Block.safe_eval body hσ h.1.2
    | false => exact Block.safe_eval alternative hσ h.2
  | .elseIf keyword condition thenWord body elseWord rest, σ, hσ, h => by
    refine (Expression.safe_eval hσ h.1.1).bind fun v hv => (Value.safe_truth hv).bind fun b _ => ?_
    cases b with
    | true => exact Block.safe_eval body hσ h.1.2
    | false => exact rest.safe_eval hσ h.2

/-- A block that is well typed does not get stuck, and keeps the types of the variables. -/
theorem Block.safe_eval {Γ : String → Ty} : ∀ (ss : List Statement) {σ : Store}, σ.Typed Γ →
    Block.WellTyped Γ ss → Safe (fun r => Store.Typed Γ r.2) (Block.eval σ ss)
  | [], σ, hσ, h => hσ
  | s :: ss, σ, hσ, h => by
    refine (s.safe_eval hσ h.1).bind ?_
    rintro ⟨flow, σ'⟩ hσ'
    cases flow with
    | next => exact Block.safe_eval ss hσ' h.2
    | abort => exact hσ'

end

end BoundedLoop
