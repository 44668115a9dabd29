import BoundedLoop.Proofs.Recovery.Blocks
import BoundedLoop.Proofs.Renaming.InStep

/-!
# Every part of the compiler runs in step

Alike tokens are compiled in the same way, whatever they are: expressions (`inStep_expression`),
statements (`inStep_statement`), what is skipped behind a statement that fails (`InStep.attempt`), blocks
(`inStep_block`) and programs (`inStep_program`). Names are only looked up, declared and given types, and
what matching names mean stays the same on both sides.
-/

namespace BoundedLoop

variable {R : String → String → Prop} {d d' : Draft} {t t' : Token}

/-! ### Skipping -/

theorem forall₂_ite {α β : Type} {S : α → β → Prop} (c : Prop) [Decidable c] {l l₁ : List α}
    {l' l₁' : List β} (h : List.Forall₂ S l l') (h₁ : List.Forall₂ S l₁ l₁') :
    List.Forall₂ S (if c then l else l₁) (if c then l' else l₁') := by
  split
  · exact h
  · exact h₁

/-- Skipping is guided by the kinds of the tokens. -/
theorem forall₂_skipFailed (base : Nat) : ∀ (depth : Nat) {ts ts' : List Token},
    List.Forall₂ (Token.Alike R) ts ts' →
    List.Forall₂ (Token.Alike R) (skipFailed base depth ts) (skipFailed base depth ts')
  | _, [], [], .nil => .nil
  | depth, t :: ts, t' :: ts', .cons ht hts => by
    have hskip : ∀ depth, List.Forall₂ (Token.Alike R) (skipFailed base depth ts)
        (skipFailed base depth ts') := by
      intro depth
      exact forall₂_skipFailed base depth hts
    have hstop : List.Forall₂ (Token.Alike R) (if 0 < base then t :: ts else ts)
        (if 0 < base then t' :: ts' else ts') := forall₂_ite _ (.cons ht hts) hts
    rw [skipFailed.eq_def base depth (t :: ts), skipFailed.eq_def base depth (t' :: ts')]
    simp only [ht.kind]
    cases t.kind with
    | keyword word =>
      cases word with
      | ifWord | loop => exact hskip (depth + 1)
      | endIf | endLoop => exact forall₂_ite _ (forall₂_ite _ hts (hskip (depth - 1))) hstop
      | endProcedure => exact hstop
      | abortLoop => exact forall₂_ite _ hts (hskip depth)
      | elseWord =>
        refine forall₂_ite _ ?_ hstop
        cases hts with
        | nil => exact .nil
        | @cons follower follower' behind behind' hfollower hbehind =>
          simp only [hfollower.kind]
          exact forall₂_ite _ (forall₂_skipFailed base depth hbehind) (hskip depth)
      | _ => exact hskip depth
    | _ => exact hskip depth

/-- Both sides go on behind a failure in the same way. -/
theorem Draft.Alike.recover (h : d.Alike R d') (base loops : Nat) :
    (d.recover base loops).Alike R (d'.recover base loops) := by
  refine ⟨?_, h.finish, h.bytes, h.slots, h.scope, ?_, rfl, h.codes⟩
  · show List.Forall₂ (Token.Alike R) (skipFailed base d.depth d.ahead)
      (skipFailed base d'.depth d'.ahead)
    rw [h.depth]
    exact forall₂_skipFailed base d.depth h.ahead
  · show d'.loops.drop (d'.loops.length - loops) = d.loops.drop (d.loops.length - loops)
    rw [h.loops]

/-- Whether a problem is said a second time depends on its code alone. -/
theorem Draft.Alike.record (h : d.Alike R d') {e e' : Diagnostic} (hcode : e'.code = e.code) :
    (d.record e).Alike R (d'.record e') := by
  have hany : d'.diagnostics.any (·.code = .unexpectedEnd) =
      d.diagnostics.any (·.code = .unexpectedEnd) := by
    have hcodes := congrArg (List.any · (· = .unexpectedEnd)) h.codes
    simpa [List.any_map, Function.comp_def] using hcodes
  unfold Draft.record
  rw [hcode, hany]
  split
  · exact h
  · refine ⟨h.ahead, h.finish, h.bytes, h.slots, h.scope, h.loops, h.depth, ?_⟩
    simp [h.codes, hcode]

namespace CompileM

/-! ### Expressions -/

theorem inStep_constant (ht : t.Alike R t') : InStep R (constant t) (constant t') := by
  unfold constant
  rw [ht.value]
  cases t.value? with
  | none => exact inStep_fail rfl
  | some v => exact (inStep_emit _ _ _).bind fun _ => inStep_pure _

theorem inStep_reference (hR : NamesMatch R) (ht : t.Alike R t') :
    InStep R (reference t) (reference t') := by
  have hname := ht.variableName? hR
  unfold reference
  generalize t.variableName? = target at hname ⊢
  generalize t'.variableName? = target' at hname ⊢
  cases hname with
  | none => exact inStep_fail rfl
  | @some name name' hname =>
    refine inStep_get_bind fun d d' hd => ?_
    have hread : readable? d'.scope name' = readable? d.scope name := by
      unfold readable?
      rw [hd.scope name name' hname]
    simp only [hread]
    split
    · exact inStep_fail rfl
    · exact (inStep_emit _ _ _).bind fun _ => inStep_pure _

section Operands

variable {sub : Level → CompileM Ty}

theorem inStep_operand (hR : NamesMatch R) (hsub : ∀ level, InStep R (sub level) (sub level))
    (ht : t.Alike R t') (form : OperandForm) :
    InStep R (operand sub t form) (operand sub t' form) := by
  cases form with
  | constant => exact inStep_constant ht
  | reference => exact inStep_reference hR ht
  | grouping =>
    exact (hsub .or).bind fun ty => (inStep_expect _ rfl).bind fun _ => inStep_pure ty
  | negation =>
    refine (hsub .unary).bind fun ty => .ite Iff.rfl ?_ (inStep_fail rfl)
    exact (inStep_emit _ _ _).bind fun _ => inStep_pure _

theorem inStep_logicalOperand (hsub : ∀ level, InStep R (sub level) (sub level)) (op : BinaryOp)
    (left : Ty) : InStep R (logicalOperand sub t op left) (logicalOperand sub t' op left) :=
  (hsub _).bind fun _ => .ite Iff.rfl (inStep_pure _) (inStep_fail rfl)

theorem inStep_onNumbers (hsub : ∀ level, InStep R (sub level) (sub level)) (op : BinaryOp)
    (left : Ty) (code : List Instruction) (ty : Ty) :
    InStep R (onNumbers sub t op left code ty) (onNumbers sub t' op left code ty) := by
  refine (hsub _).bind fun _ => .ite Iff.rfl ?_ (inStep_fail rfl)
  exact (inStep_forM (fun _ => inStep_emit _ _ _) code).bind fun _ => inStep_pure ty

theorem inStep_operation (hsub : ∀ level, InStep R (sub level) (sub level)) (op : BinaryOp)
    (left : Ty) : InStep R (operation sub t op left) (operation sub t' op left) := by
  cases op with
  | or =>
    refine (inStep_reserve _ _ _).bind fun otherwise => (inStep_reserve _ _ _).bind fun done => ?_
    refine (inStep_patch _ _ _).bind fun _ => (inStep_emit _ _ _).bind fun _ => ?_
    refine (inStep_logicalOperand hsub _ _).bind fun _ => ?_
    exact (inStep_patch _ _ _).bind fun _ => inStep_pure _
  | and =>
    refine (inStep_reserve _ _ _).bind fun done => (inStep_emit _ _ _).bind fun _ => ?_
    refine (inStep_logicalOperand hsub _ _).bind fun _ => ?_
    exact (inStep_patch _ _ _).bind fun _ => inStep_pure _
  | equal =>
    refine (hsub _).bind fun right => .ite Iff.rfl ?_ (inStep_fail rfl)
    exact (inStep_emit _ _ _).bind fun _ => inStep_pure _
  | _ => exact inStep_onNumbers hsub _ left _ _

theorem inStep_operations (hsub : ∀ level, InStep R (sub level) (sub level)) (level : Level)
    (bound : Nat) (left : Ty) :
    InStep R (operations sub level bound left) (operations sub level bound left) := by
  induction bound generalizing left with
  | zero => exact inStep_pure left
  | succ bound ih =>
    unfold operations
    refine inStep_peek_bind fun t t' ht => ?_
    rw [ht.kind]
    cases t.kind.binaryOp? with
    | none => exact inStep_pure left
    | some op =>
      refine .ite Iff.rfl ?_ (inStep_pure left)
      exact inStep_advance.bind fun _ => (inStep_operation hsub op left).bind fun ty => ih ty

end Operands

theorem inStep_climb (hR : NamesMatch R) (bound : Nat) (level : Level) :
    InStep R (climb bound level) (climb bound level) := by
  induction bound generalizing level with
  | zero => exact inStep_peek_bind fun _ _ ht => inStep_missing rfl ht
  | succ bound hsub =>
    unfold climb
    refine inStep_peek_bind fun t t' ht => ?_
    rw [ht.kind]
    cases t.kind.operandForm? with
    | none => exact inStep_missing rfl ht
    | some form =>
      refine inStep_advance.bind fun _ => (inStep_operand hR hsub ht form).bind fun left => ?_
      exact inStep_operations hsub level bound left

theorem inStep_expression (hR : NamesMatch R) : InStep R expression expression := by
  refine inStep_get_bind fun d d' hd => ?_
  rw [hd.ahead.length_eq]
  exact inStep_climb hR _ .or

/-! ### Assignments -/

section Assignments

variable {name name' : String}

theorem inStep_targetSlot (hR : NamesMatch R) (site site' : Site) (hname : R name name') :
    InStep R (targetSlot site name) (targetSlot site' name') := by
  refine inStep_get_bind fun d d' hd => ?_
  rw [hd.scope name name' hname]
  cases d.scope.find? name with
  | some v => exact inStep_pure v.slot
  | none =>
    refine (inStep_takeSlot site site').bind fun slot => ?_
    refine .bind (inStep_modify fun d d' hd => ?_) fun _ => inStep_pure slot
    exact hd.withScope (hd.scope.declare hR hname slot)

theorem inStep_assignType (hR : NamesMatch R) (site site' : Site) (hname : R name name') (ty : Ty) :
    InStep R (assignType site name ty) (assignType site' name' ty) := by
  refine inStep_get_bind fun d d' hd => ?_
  rcases hd.scope.assign hR hname ty with ⟨after, after', hassign, hassign', halike⟩ |
    ⟨e, hassign, hassign'⟩
  · rw [hassign, hassign']
    exact inStep_modify fun d d' hd => hd.withScope halike
  · rw [hassign, hassign']
    cases e with
    | undeclared => exact inStep_fail rfl
    | conflict c => exact inStep_fail rfl

theorem inStep_assignment (hR : NamesMatch R) (ht : t.Alike R t') :
    InStep R (assignment t) (assignment t') := by
  have hname := ht.variableName? hR
  unfold assignment
  generalize t.variableName? = target at hname ⊢
  generalize t'.variableName? = target' at hname ⊢
  cases hname with
  | none => exact inStep_fail rfl
  | @some name name' hname =>
    have hcode : (Expectation.arrow name').code = (Expectation.arrow name).code := rfl
    refine (inStep_expect _ hcode).bind fun _ => (inStep_targetSlot hR _ _ hname).bind fun slot => ?_
    refine (inStep_expression hR).bind fun ty => (inStep_assignType hR _ _ hname ty).bind fun _ => ?_
    exact (inStep_emit _ _ _).bind fun _ => inStep_emit _ _ _

end Assignments

/-! ### Compound statements -/

theorem inStep_condition (hR : NamesMatch R) (t t' : Token) :
    InStep R (condition t) (condition t') := by
  refine inStep_peek_bind fun start start' _ => (inStep_expression hR).bind fun ty => ?_
  exact .ite Iff.rfl (inStep_expect _ rfl) (inStep_fail rfl)

theorem inStep_loopBound (hR : NamesMatch R) : InStep R loopBound loopBound := by
  refine inStep_peek_bind fun start start' _ => (inStep_expression hR).bind fun ty => ?_
  exact .ite Iff.rfl (inStep_expect _ rfl) (inStep_fail rfl)

theorem inStep_openStatement : InStep R openStatement openStatement := by
  refine inStep_modify fun d d' hd => ?_
  exact ⟨hd.ahead, hd.finish, hd.bytes, hd.slots, hd.scope, hd.loops, congrArg (· + 1) hd.depth,
    hd.codes⟩

theorem inStep_closeStatement : InStep R closeStatement closeStatement := by
  refine inStep_modify fun d d' hd => ?_
  exact ⟨hd.ahead, hd.finish, hd.bytes, hd.slots, hd.scope, hd.loops, congrArg (· - 1) hd.depth,
    hd.codes⟩

/-- Changing the open loops in the same way on both sides. -/
theorem inStep_modifyLoops (g : List (List Chunk.Label) → List (List Chunk.Label)) :
    InStep R (modify fun d => { d with loops := g d.loops })
      (modify fun d => { d with loops := g d.loops }) := by
  refine inStep_modify fun d d' hd => ?_
  exact ⟨hd.ahead, hd.finish, hd.bytes, hd.slots, hd.scope, congrArg g hd.loops, hd.depth, hd.codes⟩

theorem inStep_leaveLoop : InStep R leaveLoop leaveLoop := by
  refine inStep_get_bind fun d d' hd => ?_
  rw [hd.loops]
  exact (inStep_modifyLoops List.tail).bind fun _ => inStep_pure _

theorem inStep_noteAbort (label : Chunk.Label) : InStep R (noteAbort label) (noteAbort label) := by
  refine inStep_modify fun d d' hd => ?_
  refine ⟨hd.ahead, hd.finish, hd.bytes, hd.slots, hd.scope, ?_, hd.depth, hd.codes⟩
  simp only [hd.loops]

theorem inStep_abortLoop (t t' : Token) : InStep R (abortLoop t) (abortLoop t') := by
  refine inStep_get_bind fun d d' hd => ?_
  rw [hd.loops]
  refine .ite Iff.rfl (inStep_fail rfl) (inStep_advance.bind fun _ => ?_)
  exact (inStep_reserve _ _ _).bind fun label => inStep_noteAbort label

theorem inStep_openArm (hR : NamesMatch R) (t t' : Token) : InStep R (openArm t) (openArm t') := by
  refine (inStep_condition hR t t').bind fun _ => (inStep_reserve _ _ _).bind fun skip => ?_
  exact (inStep_emit _ _ _).bind fun _ => inStep_pure skip

theorem inStep_closeArm (t t' : Token) (skip : Chunk.Label) :
    InStep R (closeArm t skip) (closeArm t' skip) := by
  refine (inStep_reserve _ _ _).bind fun exit => (inStep_patch _ _ _).bind fun _ => ?_
  exact (inStep_emit _ _ _).bind fun _ => inStep_pure exit

theorem inStep_openLoop (hR : NamesMatch R) (t t' : Token) :
    InStep R (openLoop t) (openLoop t') := by
  refine (inStep_loopBound hR).bind fun _ => (inStep_takeSlot _ _).bind fun bound => ?_
  refine (inStep_takeSlot _ _).bind fun counter => (inStep_emit _ _ _).bind fun _ => ?_
  refine (inStep_emit _ _ _).bind fun _ => (inStep_emit _ _ _).bind fun _ => ?_
  refine (inStep_emit _ _ _).bind fun _ => (inStep_emit _ _ _).bind fun _ => ?_
  refine inStep_get_bind fun d d' hd => ?_
  rw [hd.size]
  refine (inStep_emit _ _ _).bind fun _ => (inStep_emit _ _ _).bind fun _ => ?_
  refine (inStep_emit _ _ _).bind fun _ => (inStep_reserve _ _ _).bind fun exit => ?_
  exact (inStep_emit _ _ _).bind fun _ => inStep_pure _

theorem inStep_closeLoop (t t' closer closer' : Token) (head : UInt8 × Nat × Chunk.Label) :
    InStep R (closeLoop t closer head) (closeLoop t' closer' head) := by
  refine (inStep_emit _ _ _).bind fun _ => (inStep_emit _ _ _).bind fun _ => ?_
  refine (inStep_emit _ _ _).bind fun _ => (inStep_emit _ _ _).bind fun _ => ?_
  refine (inStep_emit _ _ _).bind fun _ => (inStep_jumpBack _ _ _ _ _).bind fun _ => ?_
  exact (inStep_patch _ _ _).bind fun _ => inStep_emit _ _ _

section Blocks

variable {block : CompileM Unit} {bound : Nat}

theorem inStep_branches (hR : NamesMatch R) (hblock : InStep R block block) (bound : Nat)
    (t t' : Token) : InStep R (branches block bound t) (branches block bound t') := by
  induction bound generalizing t t' with
  | zero => exact inStep_pure []
  | succ bound ih =>
    rw [branches_succ, branches_succ]
    refine (inStep_openArm hR t t').bind fun skip => hblock.bind fun _ => ?_
    refine (inStep_closeArm t t' skip).bind fun exit => (inStep_accept _).bind fun other => ?_
    refine .ite Iff.rfl (inStep_peek_bind fun follower follower' _ => ?_) (inStep_pure _)
    refine (inStep_accept _).bind fun again => .ite Iff.rfl ?_ ?_
    · exact (ih follower follower').bind fun _ => inStep_pure _
    · exact hblock.bind fun _ => inStep_pure _

theorem inStep_ifStatement (hR : NamesMatch R) (hblock : InStep R block block) (t t' : Token) :
    InStep R (ifStatement block bound t) (ifStatement block bound t') := by
  refine inStep_openStatement.bind fun _ => (inStep_branches hR hblock bound t t').bind fun exits => ?_
  refine (inStep_expect _ rfl).bind fun _ => inStep_closeStatement.bind fun _ => ?_
  exact inStep_forM (fun _ => inStep_patch _ _ _) exits

theorem inStep_loopStatement (hR : NamesMatch R) (hblock : InStep R block block) (t t' : Token) :
    InStep R (loopStatement block t) (loopStatement block t') := by
  rw [loopStatement_eq, loopStatement_eq]
  refine inStep_openStatement.bind fun _ => (inStep_openLoop hR t t').bind fun head => ?_
  refine (inStep_modifyLoops ([] :: ·)).bind fun _ => hblock.bind fun _ => ?_
  refine inStep_peek_bind fun closer closer' _ => (inStep_expect _ rfl).bind fun _ => ?_
  refine inStep_closeStatement.bind fun _ => (inStep_closeLoop t t' closer closer' head).bind fun _ => ?_
  exact inStep_leaveLoop.bind fun aborts => inStep_forM (fun _ => inStep_patch _ _ _) aborts

theorem inStep_statement (hR : NamesMatch R) (hblock : InStep R block block) :
    InStep R (statement block bound) (statement block bound) := by
  refine inStep_peek_bind fun t t' ht => ?_
  rw [ht.kind]
  cases t.kind with
  | identifier => exact inStep_advance.bind fun _ => inStep_assignment hR ht
  | label => exact inStep_fail rfl
  | keyword word =>
    cases word with
    | output => exact inStep_advance.bind fun _ => inStep_assignment hR ht
    | ifWord => exact inStep_advance.bind fun _ => inStep_ifStatement hR hblock t t'
    | loop => exact inStep_advance.bind fun _ => inStep_loopStatement hR hblock t t'
    | abortLoop => exact inStep_abortLoop t t'
    | _ => exact inStep_missing rfl ht
  | _ => exact inStep_missing rfl ht

end Blocks

/-! ### Programs -/

theorem InStep.attempt {s s' : CompileM Unit} (hs : InStep R s s') :
    InStep R (CompileM.attempt s) (CompileM.attempt s') := by
  intro d d' hd
  have h := hs d d' hd
  rw [attempt_apply, attempt_apply, hd.depth, hd.loops]
  generalize s d = r at h ⊢
  generalize s' d' = r' at h ⊢
  cases h with
  | ok a h => exact .ok a h
  | error hcode h => exact .ok () ((h.record hcode).recover _ _)

theorem inStep_block (hR : NamesMatch R) (bound : Nat) : InStep R (block bound) (block bound) := by
  induction bound with
  | zero => exact inStep_pure ()
  | succ bound hblock =>
    refine inStep_peek_bind fun t t' ht => .ite (by rw [ht.kind]) (inStep_pure _) ?_
    refine .ite (by rw [ht.kind]) (inStep_fail rfl) ?_
    exact (inStep_statement hR hblock).attempt.bind fun _ => hblock

theorem inStep_program (hR : NamesMatch R) (bound : Nat) :
    InStep R (program bound) (program bound) := by
  induction bound with
  | zero => exact inStep_pure ()
  | succ bound ih =>
    refine inStep_peek_bind fun t t' ht => .ite (by rw [ht.kind]) (inStep_pure _) ?_
    exact (inStep_statement hR (inStep_block hR bound)).attempt.bind fun _ => ih

end CompileM

end BoundedLoop
