import BoundedLoop.Proofs.Progress.Rounds

/-!
# Which token a failure is blamed on

A computation that compiles no block fails at a token that it was given, or at one between the place
where it began and the place where it stopped (`CompileM.Tells`). That the input ends is found only
at its end. Such a computation records nothing itself.

The expressions, the conditions and all other parts of statements are of this kind, with the tokens
that they are blamed on handed down from where they were read.
-/

namespace BoundedLoop

namespace Draft

/-- The tokens from the cursor on, the end of the input included. -/
def upcoming (d : Draft) : List Token :=
  d.ahead ++ [d.finish]

/-- The token stands at the cursor of `d`, at the cursor of `d'`, or in between. -/
def Passes (d d' : Draft) (t : Token) : Prop :=
  ∃ rest, t :: rest <:+ d.upcoming ∧ d'.upcoming <:+ t :: rest

/-- From `d` to `d'` tokens are read, and nothing is recorded. -/
structure GoesTo (d d' : Draft) : Prop where
  finish : d'.finish = d.finish
  ahead : d'.ahead <:+ d.ahead
  diagnostics : d'.diagnostics = d.diagnostics

/-- A failure of a computation that began at `d`. It is blamed on a token that was `given` or
passed, and on the end of the input just where that is reached. -/
structure FailsAt (given : Token → Prop) (d : Draft) (e : Diagnostic) (d' : Draft) : Prop
    extends d.GoesTo d' where
  site : ∃ t, (given t ∨ d.Passes d' t) ∧ e.toSite = t.toSite
  ended : e.code = .unexpectedEnd → d'.ahead = [] ∧ e.toSite = d'.finish.toSite

variable {d d' d'' : Draft} {e : Diagnostic} {given given' known : Token → Prop}

theorem exists_upcoming (d : Draft) : ∃ rest, d.upcoming = d.next :: rest := by
  unfold upcoming next
  cases d.ahead with
  | nil => exact ⟨[], rfl⟩
  | cons t ts => exact ⟨ts ++ [d.finish], rfl⟩

namespace GoesTo

theorem refl (d : Draft) : d.GoesTo d := ⟨rfl, List.suffix_rfl, rfl⟩

theorem trans (h : d.GoesTo d') (h' : d'.GoesTo d'') : d.GoesTo d'' :=
  ⟨h'.finish.trans h.finish, h'.ahead.trans h.ahead, h'.diagnostics.trans h.diagnostics⟩

theorem upcoming (h : d.GoesTo d') : d'.upcoming <:+ d.upcoming := by
  obtain ⟨used, hused⟩ := h.ahead
  refine ⟨used, ?_⟩
  unfold Draft.upcoming
  rw [h.finish, ← hused, List.append_assoc]

theorem sound (h : d.GoesTo d') (hd : d.Sound known) : d'.Sound known := by
  refine ⟨by rw [h.finish, hd.finish], ?_⟩
  intro t ht
  exact hd.ahead t (h.ahead.subset ht)

end GoesTo

theorem GoesTo.behindNext (d : Draft) : d.GoesTo d.behindNext := ⟨rfl, List.tail_suffix _, rfl⟩

/-- The token at the cursor is passed wherever the computation stops. -/
theorem GoesTo.passes_next (h : d.GoesTo d') : d.Passes d' d.next := by
  obtain ⟨rest, hrest⟩ := d.exists_upcoming
  refine ⟨rest, ⟨[], hrest.symm⟩, ?_⟩
  rw [← hrest]
  exact h.upcoming

theorem FailsAt.mono (h : d.FailsAt given e d') (hgiven : ∀ t, given t → given' t ∨ d.Passes d' t) :
    d.FailsAt given' e d' := by
  obtain ⟨t, ht, hsite⟩ := h.site
  refine ⟨h.toGoesTo, ⟨t, ?_, hsite⟩, h.ended⟩
  rcases ht with ht | ht
  · exact hgiven t ht
  · exact .inr ht

theorem GoesTo.failsAt (h : d.GoesTo d') (h' : d'.FailsAt given e d'') : d.FailsAt given e d'' := by
  obtain ⟨t, ht, hsite⟩ := h'.site
  refine ⟨h.trans h'.toGoesTo, ⟨t, ?_, hsite⟩, h'.ended⟩
  rcases ht with ht | ⟨rest, hrest, hstop⟩
  · exact .inl ht
  · exact .inr ⟨rest, hrest.trans h.upcoming, hstop⟩

/-- Where no token ahead ends the input, it ends behind all of them. -/
theorem Sound.ahead_eq_nil (hd : d.Sound (·.kind ≠ .eof)) (hnext : d.next.kind = .eof) :
    d.ahead = [] := by
  cases hahead : d.ahead with
  | nil => rfl
  | cons t ts =>
    rw [next_eq hahead] at hnext
    exact absurd hnext (hd.ahead t (by rw [hahead]; exact List.mem_cons_self))

end Draft

namespace CompileM

variable {α β : Type} {given : Token → Prop} {m : CompileM α} {f : α → CompileM β} {d : Draft}

/-- Wherever no token ahead ends the input, the computation records nothing, and fails at a token
that was `given` or that it passed. -/
def Tells (given : Token → Prop) (m : CompileM α) : Prop :=
  ∀ d, d.Sound (·.kind ≠ .eof) → Ends m d (fun _ d' => d.GoesTo d') (d.FailsAt given)

namespace Tells

/-! ### Sequencing and choice -/

theorem bind (hm : Tells given m) (hf : ∀ a, Tells given (f a)) : Tells given (m >>= f) := by
  intro d hd
  refine Ends.bind (hm d hd) ?_
  intro a d' hgoes
  refine (hf a d' (hgoes.sound hd)).mono ?_ ?_
  · intro b d'' hgoes'
    exact hgoes.trans hgoes'
  · intro e d'' hfails
    exact hgoes.failsAt hfails

theorem pure (a : α) : Tells given (pure a) := fun d _ => .refl d

theorem get : Tells given (get : CompileM Draft) := fun d _ => .refl d

theorem ite {c : Prop} [Decidable c] {m' : CompileM α} (hm : Tells given m) (hm' : Tells given m') :
    Tells given (if c then m else m') := by
  split
  · exact hm
  · exact hm'

theorem forM {g : β → CompileM PUnit} (h : ∀ b, Tells given (g b)) (l : List β) :
    Tells given (l.forM g) := by
  induction l with
  | nil => exact pure _
  | cons b l ih => exact (h b).bind fun _ => ih

theorem modify {g : Draft → Draft}
    (h : ∀ d, (g d).finish = d.finish ∧ (g d).ahead = d.ahead ∧ (g d).diagnostics = d.diagnostics) :
    Tells given (modify g : CompileM PUnit) := by
  intro d _
  obtain ⟨hfinish, hahead, hfound⟩ := h d
  exact ⟨hfinish, ⟨[], hahead⟩, hfound⟩

/-- A failure at a token that was given, for another reason than that the input ends. -/
theorem fail {t : Token} {problem : Problem} (ht : given t)
    (h : decide (problem.code = .unexpectedEnd) = false) :
    Tells given (fail t.toSite problem : CompileM α) :=
  fun d _ => ⟨.refl d, ⟨t, .inl ht, rfl⟩, fun hcode => absurd hcode (of_decide_eq_false h)⟩

/-! ### Tokens -/

/-- The token that comes next is given to what follows. -/
theorem ends_peek_bind {f : Token → CompileM β} (h : Ends (f d.next) d (fun _ d' => d.GoesTo d')
    (d.FailsAt fun t => given t ∨ t = d.next)) :
    Ends (peek >>= f) d (fun _ d' => d.GoesTo d') (d.FailsAt given) := by
  refine Ends.peek_bind (h.mono (fun _ _ hgoes => hgoes) ?_)
  intro e d' hfails
  refine hfails.mono ?_
  rintro t (ht | rfl)
  · exact .inl ht
  · exact .inr hfails.passes_next

theorem peek_bind {f : Token → CompileM β} (hf : ∀ t, Tells (fun t' => given t' ∨ t' = t) (f t)) :
    Tells given (peek >>= f) :=
  fun d hd => ends_peek_bind (hf d.next d hd)

theorem advance : Tells given advance := fun d _ => .behindNext d

end Tells

/-- A complaint about the token that comes next, which may be the end of the input. -/
theorem ends_missing (hd : d.Sound (·.kind ≠ .eof)) (wanted : Expectation) :
    Ends (missing wanted d.next : CompileM α) d (fun _ d' => d.GoesTo d') (d.FailsAt given) := by
  refine ⟨.refl d, ⟨d.next, .inr (Draft.GoesTo.refl d).passes_next, rfl⟩, ?_⟩
  intro hcode
  have hnext : d.next.kind = .eof := by
    by_contra hne
    have hcode : (Problem.missing wanted (if d.next.kind = .eof then none else some d.next.text)).code =
        .unexpectedEnd := hcode
    rw [if_neg hne] at hcode
    cases wanted <;> cases hcode
  have hahead := hd.ahead_eq_nil hnext
  refine ⟨hahead, ?_⟩
  show d.next.toSite = d.finish.toSite
  rw [Draft.next, hahead]
  rfl

theorem tells_expect (kind : Token.Kind) (wanted : Expectation) : Tells given (expect kind wanted) := by
  intro d hd
  refine Ends.peek_bind ?_
  split
  · exact Tells.advance d hd
  · exact ends_missing hd wanted

/-! ### Code -/

section Code

variable {t : Token}

theorem tells_emit (i : Instruction) (line : Nat) : Tells given (emit i line) :=
  .modify fun _ => ⟨rfl, rfl, rfl⟩

theorem tells_reserve (branch : Branch) (line : Nat) : Tells given (reserve branch line) := by
  refine Tells.get.bind fun d => ?_
  exact .bind (.modify fun _ => ⟨rfl, rfl, rfl⟩) fun _ => .pure _

theorem tells_patch (ht : given t) (label : Chunk.Label) : Tells given (patch t.toSite label) := by
  refine Tells.get.bind fun d => ?_
  split
  · exact .fail ht rfl
  · exact .modify fun _ => ⟨rfl, rfl, rfl⟩

theorem tells_jumpBack (ht : given t) (target line : Nat) :
    Tells given (jumpBack t.toSite target line) := by
  refine Tells.get.bind fun d => ?_
  split
  · exact .fail ht rfl
  · exact tells_emit _ _

theorem tells_takeSlot (ht : given t) : Tells given (takeSlot t.toSite) := by
  refine Tells.get.bind fun d => ?_
  split
  · exact .fail ht rfl
  · exact .bind (.modify fun _ => ⟨rfl, rfl, rfl⟩) fun _ => .pure _

end Code

/-! ### Expressions -/

section Expressions

variable {token : Token} {sub : Level → CompileM Ty}

theorem tells_constant (ht : given token) : Tells given (constant token) := by
  unfold constant
  split
  · exact .fail ht rfl
  · exact (tells_emit _ _).bind fun _ => .pure _

theorem tells_reference (ht : given token) : Tells given (reference token) := by
  unfold reference
  split
  · exact .fail ht rfl
  · refine Tells.get.bind fun d => ?_
    split
    · exact .fail ht rfl
    · exact (tells_emit _ _).bind fun _ => .pure _

theorem tells_operand (hsub : ∀ level, Tells given (sub level)) (ht : given token)
    (form : OperandForm) :
    Tells given (operand sub token form) := by
  cases form with
  | constant => exact tells_constant ht
  | reference => exact tells_reference ht
  | grouping => exact (hsub .or).bind fun ty => (tells_expect _ _).bind fun _ => .pure ty
  | negation =>
    refine (hsub .unary).bind fun ty => .ite ?_ (.fail ht rfl)
    exact (tells_emit _ _).bind fun _ => .pure _

theorem tells_logicalOperand (hsub : ∀ level, Tells given (sub level)) (ht : given token)
    (op : BinaryOp) (left : Ty) : Tells given (logicalOperand sub token op left) :=
  (hsub _).bind fun _ => .ite (.pure _) (.fail ht rfl)

theorem tells_onNumbers (hsub : ∀ level, Tells given (sub level)) (ht : given token)
    (op : BinaryOp) (left : Ty) (code : List Instruction) (ty : Ty) :
    Tells given (onNumbers sub token op left code ty) := by
  refine (hsub _).bind fun right => .ite ?_ (.fail ht rfl)
  exact (Tells.forM (fun _ => tells_emit _ _) code).bind fun _ => .pure ty

theorem tells_operation (hsub : ∀ level, Tells given (sub level)) (ht : given token)
    (op : BinaryOp) (left : Ty) :
    Tells given (operation sub token op left) := by
  cases op with
  | or =>
    refine (tells_reserve _ _).bind fun otherwise => (tells_reserve _ _).bind fun done => ?_
    refine (tells_patch ht _).bind fun _ => (tells_emit _ _).bind fun _ => ?_
    refine (tells_logicalOperand hsub ht _ _).bind fun _ => ?_
    exact (tells_patch ht _).bind fun _ => .pure _
  | and =>
    refine (tells_reserve _ _).bind fun done => (tells_emit _ _).bind fun _ => ?_
    refine (tells_logicalOperand hsub ht _ _).bind fun _ => ?_
    exact (tells_patch ht _).bind fun _ => .pure _
  | equal =>
    refine (hsub _).bind fun right => .ite ?_ (.fail ht rfl)
    exact (tells_emit _ _).bind fun _ => .pure _
  | _ => exact tells_onNumbers hsub ht _ _ _ _

theorem tells_operations (hsub : ∀ given level, Tells given (sub level)) (level : Level)
    (bound : Nat) (left : Ty) :
    Tells given (operations sub level bound left) := by
  induction bound generalizing given left with
  | zero => exact .pure left
  | succ bound ih =>
    refine .peek_bind fun token => ?_
    split
    · exact .pure left
    · refine .ite (Tells.advance.bind fun _ => ?_) (.pure left)
      exact (tells_operation (hsub _) (.inr rfl) _ left).bind fun ty => ih ty

/-- An expression fails at a token of its own, or at the one behind it. -/
theorem tells_climb (bound : Nat) (level : Level) : Tells given (climb bound level) := by
  induction bound generalizing given level with
  | zero =>
    intro d hd
    refine Tells.ends_peek_bind ?_
    exact ends_missing hd .expression
  | succ bound ih =>
    intro d hd
    refine Tells.ends_peek_bind ?_
    split
    · exact ends_missing hd .expression
    · refine (Tells.advance.bind fun _ => ?_) d hd
      refine (tells_operand (fun _ => ih _) (.inr rfl) _).bind fun left => ?_
      exact tells_operations (fun _ _ => ih _) level bound left

theorem tells_expression : Tells given expression :=
  Tells.get.bind fun _ => tells_climb _ _

end Expressions

/-! ### Parts of statements -/

section Statements

variable {target keyword : Token}

theorem tells_targetSlot (ht : given target) (name : String) :
    Tells given (targetSlot target.toSite name) := by
  refine Tells.get.bind fun d => ?_
  split
  · exact .pure _
  · refine (tells_takeSlot ht).bind fun slot => ?_
    exact .bind (.modify fun _ => ⟨rfl, rfl, rfl⟩) fun _ => .pure _

theorem tells_assignType (ht : given target) (name : String) (ty : Ty) :
    Tells given (assignType target.toSite name ty) := by
  refine Tells.get.bind fun d => ?_
  split
  · exact .modify fun _ => ⟨rfl, rfl, rfl⟩
  · exact .fail ht rfl
  · exact .fail ht rfl

theorem tells_assignment (ht : given target) : Tells given (assignment target) := by
  unfold assignment
  split
  · exact .fail ht rfl
  · refine (tells_expect _ _).bind fun _ => (tells_targetSlot ht _).bind fun slot => ?_
    refine tells_expression.bind fun ty => (tells_assignType ht _ ty).bind fun _ => ?_
    exact (tells_emit _ _).bind fun _ => tells_emit _ _

theorem tells_condition (keyword : Token) : Tells given (condition keyword) :=
  .peek_bind fun _ => tells_expression.bind fun _ => .ite (tells_expect _ _) (.fail (.inr rfl) rfl)

theorem tells_loopBound : Tells given loopBound :=
  .peek_bind fun _ => tells_expression.bind fun _ => .ite (tells_expect _ _) (.fail (.inr rfl) rfl)

theorem tells_openArm (keyword : Token) : Tells given (openArm keyword) := by
  refine (tells_condition keyword).bind fun _ => (tells_reserve _ _).bind fun skip => ?_
  exact (tells_emit _ _).bind fun _ => .pure skip

theorem tells_closeArm (hkeyword : given keyword) (skip : Chunk.Label) :
    Tells given (closeArm keyword skip) := by
  refine (tells_reserve _ _).bind fun exit => (tells_patch hkeyword skip).bind fun _ => ?_
  exact (tells_emit _ _).bind fun _ => .pure exit

theorem tells_openLoop (hkeyword : given keyword) : Tells given (openLoop keyword) := by
  refine tells_loopBound.bind fun _ => ?_
  refine (tells_takeSlot hkeyword).bind fun bound => (tells_takeSlot hkeyword).bind fun counter => ?_
  iterate 5 refine (tells_emit _ _).bind fun _ => ?_
  refine Tells.get.bind fun d => ?_
  iterate 3 refine (tells_emit _ _).bind fun _ => ?_
  refine (tells_reserve _ _).bind fun exit => ?_
  exact (tells_emit _ _).bind fun _ => .pure _

theorem tells_closeLoop (hkeyword : given keyword) (closer : Token) (head : UInt8 × Nat × Chunk.Label) :
    Tells given (closeLoop keyword closer head) := by
  unfold closeLoop
  iterate 5 refine (tells_emit _ _).bind fun _ => ?_
  refine (tells_jumpBack hkeyword _ _).bind fun _ => (tells_patch hkeyword _).bind fun _ => ?_
  exact tells_emit _ _

end Statements

end CompileM

end BoundedLoop
