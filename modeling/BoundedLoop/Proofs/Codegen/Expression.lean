import BoundedLoop.Proofs.Codegen.Clean
import BoundedLoop.Proofs.Syntax.Typing

/-!
# What compiling an expression comes to

A clean compilation of an expression reads its tree, finds its type and writes its code, provided
that there is a type and that the jumps in the code can be written (`CompileM.clean_expression`).
-/

namespace BoundedLoop

/-- The variables of a draft have their slots by `l` and their types by `types`. -/
structure Draft.Knows (d : Draft) (l : Layout) (types : Types) : Prop where
  scope : d.scope = .of l types
  finish : d.finish.kind = .eof
  declared : ∀ name ty, types name = some ty → some name ∈ l

theorem Draft.Knows.write {d : Draft} {l : Layout} {types : Types} (h : d.Knows l types)
    (ahead : List Token) (chunk : Chunk) :
    Draft.Knows { d with ahead := ahead, chunk := chunk } l types :=
  ⟨h.scope, h.finish, h.declared⟩

/-- The type of an expression and the draft behind it, where `rest` is ahead. -/
def Expression.draft? (l : Layout) (types : Types) (d : Draft) (e : Expression)
    (rest : List Token) : Option (Ty × Draft) :=
  (e.type? types).bind fun ty =>
    if (e.code l.slot).Fits then
      some (ty, { d with ahead := rest, chunk := d.chunk.append (e.code l.slot) })
    else none

theorem Expression.draft?_eq_some {l : Layout} {types : Types} {d : Draft} {e : Expression}
    {rest : List Token} {p : Ty × Draft} (h : e.draft? l types d rest = some p) :
    p.2 = { d with ahead := rest, chunk := d.chunk.append (e.code l.slot) } := by
  simp only [draft?, Option.bind_eq_some_iff] at h
  obtain ⟨ty, -, h⟩ := h
  split at h
  · cases h
    rfl
  · cases h

namespace CompileM

variable {l : Layout} {types : Types} {sub : Level → CompileM Ty}

/-! ### Diagnostics stay -/

instance keeps_constant (t : Token) : Keeps (constant t) := by
  unfold constant
  split <;> infer_instance

instance keeps_reference (t : Token) : Keeps (reference t) := by
  unfold reference
  split
  · infer_instance
  · refine @keeps_bind _ _ _ _ _ fun d => ?_
    split <;> infer_instance

instance keeps_operand [∀ level, Keeps (sub level)] (t : Token) (form : OperandForm) :
    Keeps (operand sub t form) := by
  cases form <;> unfold operand <;> infer_instance

instance keeps_logicalOperand [∀ level, Keeps (sub level)] (t : Token) (op : BinaryOp) (left : Ty) :
    Keeps (logicalOperand sub t op left) := by
  unfold logicalOperand; infer_instance

instance keeps_onNumbers [∀ level, Keeps (sub level)] (t : Token) (op : BinaryOp) (left : Ty)
    (code : List Instruction) (ty : Ty) : Keeps (onNumbers sub t op left code ty) := by
  unfold onNumbers; infer_instance

instance keeps_operation [∀ level, Keeps (sub level)] (t : Token) (op : BinaryOp) (left : Ty) :
    Keeps (operation sub t op left) := by
  cases op <;> unfold operation <;> infer_instance

instance keeps_operations [∀ level, Keeps (sub level)] (level : Level) :
    ∀ (bound : Nat) (left : Ty), Keeps (operations sub level bound left)
  | 0, left => keeps_pure left
  | bound + 1, left => by
    have := keeps_operations level bound
    unfold operations
    refine @keeps_bind _ _ _ _ _ fun t => ?_
    split <;> infer_instance

instance keeps_climb : ∀ (bound : Nat) (level : Level), Keeps (climb bound level)
  | 0, level => by unfold climb; infer_instance
  | bound + 1, level => by
    have := keeps_climb bound
    unfold climb
    refine @keeps_bind _ _ _ _ _ fun t => ?_
    split <;> infer_instance

instance keeps_expression : Keeps expression := by
  unfold expression; infer_instance

/-! ### Operands -/

theorem readable?_of (h : ∀ name ty, types name = some ty → some name ∈ l) (name : String) :
    readable? (.of l types) name = (types name).map fun ty => (l.slot name, ty) := by
  rw [readable?, Scope.find?_of]
  cases hty : types name with
  | none => split <;> simp
  | some ty => simp [h name ty hty]

/-- `sub` compiles the expressions that `read` reads. -/
def Compiles (l : Layout) (types : Types) (sub : Level → CompileM Ty)
    (read : Level → Reader Expression) : Prop :=
  ∀ level d, d.Knows l types →
    (sub level).clean d = (read level d.ahead).bind fun p => p.1.draft? l types d p.2

theorem clean_operand [∀ level, Keeps (sub level)] {read : Level → Reader Expression}
    (hsub : Compiles l types sub read) (t : Token) (form : OperandForm) {d : Draft}
    (hd : d.Knows l types) :
    (operand sub t form).clean d =
      (Read.operand read t form d.ahead).bind fun p => p.1.draft? l types d p.2 := by
  cases form with
  | constant =>
    simp only [operand, constant, Read.operand]
    cases t.value? with
    | none => rfl
    | some v =>
      simp only [clean_bind, clean_emit, clean_pure, Option.bind_some]
      simp [Expression.draft?, Expression.type?, Expression.code]
  | reference =>
    simp only [operand, reference, Read.operand]
    cases t.variableName? with
    | none => rfl
    | some name =>
      simp only [clean_get_bind, hd.scope, readable?_of hd.declared]
      cases hty : types name with
      | none => simp [Expression.draft?, Expression.type?, hty]
      | some ty =>
        simp only [Option.map_some, clean_bind, clean_emit, clean_pure, Option.bind_some]
        simp [Expression.draft?, Expression.type?, Expression.code, hty]
  | grouping =>
    simp only [operand, Read.operand, clean_bind, hsub .or d hd, Option.bind_assoc,
      Option.bind_eq_bind]
    refine Option.bind_congr fun p _ => ?_
    obtain ⟨e, ts⟩ := p
    simp only [Expression.draft?, Option.bind_assoc]
    cases hty : e.type? types with
    | none => simp [Expression.type?, hty]
    | some ty =>
      by_cases hfits : (e.code l.slot).Fits
      · have hexpect := clean_expect (.symbol .rightParen) (by simp) .rightParen
          (hd.write ts (d.chunk.append (e.code l.slot))).finish
        simp only [Option.bind_some, if_pos hfits, hexpect, clean_pure]
        cases Read.token (.symbol .rightParen) ts <;>
          simp [Expression.type?, Expression.code, hty, hfits]
      · simp [Expression.type?, Expression.code, hty, hfits]
  | negation =>
    simp only [operand, Read.operand, clean_bind, hsub .unary d hd, Option.bind_assoc,
      Option.bind_eq_bind]
    refine Option.bind_congr fun p _ => ?_
    obtain ⟨e, ts⟩ := p
    simp only [Expression.draft?, Option.bind_assoc]
    cases hty : e.type? types with
    | none => simp [Expression.type?, hty]
    | some ty =>
      by_cases hfits : (e.code l.slot).Fits
      · simp only [Option.bind_some, if_pos hfits, clean_ite, clean_bind, clean_emit, clean_pure,
          clean_fail]
        by_cases hb : ty = .boolean <;> simp [Expression.type?, Expression.code, hty, hfits, hb]
      · simp [Expression.type?, Expression.code, hty, hfits]

/-! ### Operations -/

theorem clean_forM_emit (line : Nat) : ∀ (code : List Instruction) (d : Draft),
    (code.forM (emit · line)).clean d =
      some ((), { d with chunk := d.chunk.append (code.map (.op · line)) })
  | [], d => by
    rw [List.map_nil, Chunk.append_nil]
    exact clean_pure () d
  | i :: code, d => by
    show ((emit i line >>= fun _ => code.forM (emit · line)) : CompileM PUnit).clean d = _
    rw [clean_bind, clean_emit, Option.bind_some, clean_forM_emit line code]
    simp

/-- The type of an operation and the draft behind it, when the code of its left operand is
written. -/
def operationDraft? (l : Layout) (types : Types) (d : Draft) (t : Token) (op : BinaryOp) (left : Ty)
    (right : Expression) (rest : List Token) : Option (Ty × Draft) :=
  ((right.type? types).bind (op.result? left)).bind fun ty =>
    if (op.code t.line (right.code l.slot)).Fits then
      some (ty, { d with ahead := rest, chunk := d.chunk.append (op.code t.line (right.code l.slot)) })
    else none

theorem clean_onNumbers [∀ level, Keeps (sub level)] {read : Level → Reader Expression}
    (hsub : Compiles l types sub read) (t : Token) {op : BinaryOp} (left ty : Ty) {d : Draft}
    (hd : d.Knows l types)
    (hresult : ∀ right, op.result? left right =
      if left = .number ∧ right = .number then some ty else none)
    (hcode : ∀ right, op.code t.line right = right ++ op.instructions.map (.op · t.line)) :
    (onNumbers sub t op left op.instructions ty).clean d =
      (read op.level.tighter d.ahead).bind fun p =>
        operationDraft? l types d t op left p.1 p.2 := by
  simp only [onNumbers, clean_bind, hsub op.level.tighter d hd, Option.bind_assoc]
  refine Option.bind_congr fun p _ => ?_
  obtain ⟨right, rest⟩ := p
  simp only [Expression.draft?, operationDraft?, Option.bind_assoc]
  refine Option.bind_congr fun rty _ => ?_
  have hops : (Fragment.Fits (op.instructions.map (.op · t.line))) := by
    simp [Fragment.Fits, Item.Fits]
  by_cases hfits : (right.code l.slot).Fits
  · simp only [Option.bind_some, clean_ite, clean_bind, clean_forM_emit, clean_pure, clean_fail,
      hresult, hcode, Fragment.fits_append, hfits, hops]
    by_cases hty : left = .number ∧ rty = .number <;> simp [hty]
  · simp only [hresult, hcode, Fragment.fits_append, hfits]
    by_cases hty : left = .number ∧ rty = .number <;> simp [hty]

/-- The right operand of `and` and `or`, and the jump over it that was written in front. -/
theorem clean_jumpOver [∀ level, Keeps (sub level)] {read : Level → Reader Expression}
    (hsub : Compiles l types sub read) (t : Token) (op : BinaryOp) (left : Ty) {d : Draft}
    (hd : d.Knows l types) (c : Chunk) (a : Fragment) (branch : Branch)
    (hc : d.chunk = c.append (a ++ [.jump branch (-1) t.line, .op .pop t.line])) :
    (do
      logicalOperand sub t op left
      patch t.toSite ⟨c.size + a.size + 1⟩
      return Ty.boolean : CompileM Ty).clean d =
      (read op.level.tighter d.ahead).bind fun p =>
        (p.1.type? types).bind fun right =>
          if (left = .boolean ∧ right = .boolean) ∧ FitsJump ((p.1.code l.slot).size + 1) ∧
              (p.1.code l.slot).Fits then
            some (.boolean, { d with
              ahead := p.2
              chunk := c.append (a ++ .jump branch ((p.1.code l.slot).size + 1) t.line ::
                .op .pop t.line :: p.1.code l.slot) })
          else none := by
  simp only [clean_bind, logicalOperand, hsub op.level.tighter d hd, Option.bind_assoc, clean_ite,
    clean_pure, clean_fail]
  refine Option.bind_congr fun p _ => ?_
  obtain ⟨right, rest⟩ := p
  simp only [Expression.draft?, Option.bind_assoc]
  refine Option.bind_congr fun rty _ => ?_
  by_cases hfits : (right.code l.slot).Fits
  · by_cases hty : left = .boolean ∧ rty = .boolean
    · have hc : d.chunk.append (right.code l.slot) =
          c.append (a ++ .jump branch (-1) t.line :: .op .pop t.line :: right.code l.slot) := by
        rw [hc]
        simp
      have hsize : Fragment.size (.op .pop t.line :: right.code l.slot) =
          (right.code l.slot).size + 1 := by
        rw [Fragment.size_cons_op, Instruction.size_pop, Nat.add_comm]
      simp only [if_pos hfits, Option.bind_some, if_pos hty]
      rw [clean_patch_of_eq (d := { d with
          ahead := rest, chunk := d.chunk.append (right.code l.slot) }) t.toSite hc rfl, hsize]
      by_cases hjump : FitsJump ((right.code l.slot).size + 1) <;> simp [hjump, hfits, hty]
    · simp [hfits, hty]
  · simp [hfits]

theorem clean_or [∀ level, Keeps (sub level)] {read : Level → Reader Expression}
    (hsub : Compiles l types sub read) (t : Token) (left : Ty) {d : Draft}
    (hd : d.Knows l types) :
    (operation sub t .or left).clean d =
      (read BinaryOp.or.level.tighter d.ahead).bind fun p =>
        operationDraft? l types d t .or left p.1 p.2 := by
  have hover := clean_jumpOver hsub t .or left
    (hd.write d.ahead (d.chunk.append ([.jump .ifFalse 3 t.line] ++
      [.jump .always (-1) t.line, .op .pop t.line]))) d.chunk [.jump .ifFalse 3 t.line] .always rfl
  -- the first of the two jumps leads over the second
  have hpatch := clean_patch_of_eq (d := { d with
    chunk := d.chunk.append [.jump .ifFalse (-1) t.line, .jump .always (-1) t.line] }) t.toSite
    (a := []) (k := d.chunk.size) rfl rfl
  have hfits : FitsJump (Fragment.size [.jump .always (-1) t.line]) := by
    rw [Fragment.size_cons_jump]
    decide
  simp only [operation, clean_reserve_bind, Chunk.append_append, List.cons_append, List.nil_append]
  rw [clean_bind_of_eq_some (hpatch.trans (if_pos hfits)), clean_emit_bind]
  simp only [Chunk.append_append, List.cons_append, List.nil_append, Chunk.size_append,
    Fragment.size_cons_jump, Fragment.size_nil, Nat.add_zero] at hover ⊢
  refine Eq.trans hover ?_
  refine Option.bind_congr fun p _ => ?_
  simp only [operationDraft?, Option.bind_assoc]
  refine Option.bind_congr fun rty _ => ?_
  have h3 : FitsJump 3 := by decide
  rw [BinaryOp.result?_or]
  by_cases hty : left = .boolean ∧ rty = .boolean <;>
    by_cases hjump : FitsJump ((p.1.code l.slot).size + 1) <;>
    by_cases hfits : (p.1.code l.slot).Fits <;>
    simp [BinaryOp.code, h3, hty, hjump, hfits]

theorem clean_and [∀ level, Keeps (sub level)] {read : Level → Reader Expression}
    (hsub : Compiles l types sub read) (t : Token) (left : Ty) {d : Draft}
    (hd : d.Knows l types) :
    (operation sub t .and left).clean d =
      (read BinaryOp.and.level.tighter d.ahead).bind fun p =>
        operationDraft? l types d t .and left p.1 p.2 := by
  have hover := clean_jumpOver hsub t .and left
    (hd.write d.ahead (d.chunk.append ([] ++ [.jump .ifFalse (-1) t.line, .op .pop t.line])))
    d.chunk [] .ifFalse rfl
  simp only [operation, clean_bind (reserve _ _), clean_bind (emit _ _), clean_reserve,
    clean_emit, Option.bind_some, Chunk.append_append]
  refine Eq.trans hover ?_
  refine Option.bind_congr fun p _ => ?_
  simp only [operationDraft?, Option.bind_assoc]
  refine Option.bind_congr fun rty _ => ?_
  rw [BinaryOp.result?_and]
  by_cases hty : left = .boolean ∧ rty = .boolean <;>
    by_cases hjump : FitsJump ((p.1.code l.slot).size + 1) <;>
    by_cases hfits : (p.1.code l.slot).Fits <;>
    simp [BinaryOp.code, hty, hjump, hfits]

theorem clean_operation [∀ level, Keeps (sub level)] {read : Level → Reader Expression}
    (hsub : Compiles l types sub read) (t : Token) (op : BinaryOp) (left : Ty) {d : Draft}
    (hd : d.Knows l types) :
    (operation sub t op left).clean d =
      (read op.level.tighter d.ahead).bind fun p =>
        operationDraft? l types d t op left p.1 p.2 := by
  cases op with
  | or => exact clean_or hsub t left hd
  | and => exact clean_and hsub t left hd
  | equal =>
    simp only [operation, clean_bind, hsub _ d hd, Option.bind_assoc]
    refine Option.bind_congr fun p _ => ?_
    obtain ⟨right, rest⟩ := p
    simp only [Expression.draft?, operationDraft?, Option.bind_assoc]
    refine Option.bind_congr fun rty _ => ?_
    simp only [clean_ite, clean_bind, clean_emit, clean_pure, clean_fail, BinaryOp.result?,
      BinaryOp.code, BinaryOp.instructions, Option.bind_some]
    by_cases hfits : (right.code l.slot).Fits <;> by_cases hty : left = rty <;> simp [hfits, hty]
  | less | lessEqual | greater | greaterEqual | plus | star =>
    refine clean_onNumbers hsub t left _ hd (fun right => ?_) (fun _ => rfl)
    cases left <;> cases right <;> rfl

/-! ### Expressions -/

theorem bind_operationDraft? (d : Draft) (left : Expression) (t : Token) (op : BinaryOp)
    (right : Expression) (ts rest : List Token) :
    ((left.draft? l types d ts).bind fun p => operationDraft? l types p.2 t op p.1 right rest) =
      (Expression.binary left t op right).draft? l types d rest := by
  simp only [Expression.draft?, Expression.type?, Expression.code, Option.bind_assoc,
    Option.bind_eq_bind]
  refine Option.bind_congr fun lty _ => ?_
  by_cases hleft : (left.code l.slot).Fits
  · simp only [if_pos hleft, Option.bind_some, operationDraft?, Option.bind_assoc]
    refine Option.bind_congr fun rty _ => Option.bind_congr fun ty _ => ?_
    by_cases hright : (op.code t.line (right.code l.slot)).Fits <;> simp [hleft, hright]
  · simp [hleft]

theorem clean_operations [∀ level, Keeps (sub level)] {read : Level → Reader Expression}
    (hsub : Compiles l types sub read) (level : Level) {d : Draft} (hd : d.Knows l types) :
    ∀ (bound : Nat) (left : Expression) (ts : List Token),
      ((left.draft? l types d ts).bind fun p => (operations sub level bound p.1).clean p.2) =
        (Read.operations read level bound left ts).bind fun p => p.1.draft? l types d p.2
  | 0, left, ts => by
    simp only [operations, Read.operations, clean_pure, Option.bind_some]
    exact Option.bind_fun_some _
  | bound + 1, left, [] => by
    have hnone : d.finish.kind.binaryOp? = none := by rw [hd.finish]; rfl
    refine Eq.trans (Option.bind_congr fun p hp => ?_) (Option.bind_fun_some _)
    rw [operations, clean_peek_bind, Draft.next, Expression.draft?_eq_some hp]
    simp only [List.headD_nil, hnone, clean_pure, ← Expression.draft?_eq_some hp]
  | bound + 1, left, t :: ts => by
    have hnext : ∀ p, left.draft? l types d (t :: ts) = some p →
        p.2.next = t ∧ p.2.ahead.tail = ts ∧ Draft.Knows { p.2 with ahead := ts } l types := by
      intro p hp
      rw [Expression.draft?_eq_some hp]
      exact ⟨rfl, rfl, hd.write ts _⟩
    simp only [operations, Read.operations, clean_peek_bind]
    cases hop : t.kind.binaryOp? with
    | none =>
      refine Eq.trans (Option.bind_congr fun p hp => ?_) (Option.bind_fun_some _)
      simp only [(hnext p hp).1, hop, clean_pure]
    | some op =>
      by_cases hlevel : level ≤ op.level
      · calc ((left.draft? l types d (t :: ts)).bind fun p => _)
          _ = (left.draft? l types d (t :: ts)).bind fun p =>
                (read op.level.tighter ts).bind fun q =>
                  (operationDraft? l types p.2 t op p.1 q.1 q.2).bind fun r =>
                    (operations sub level bound r.1).clean r.2 := by
            refine Option.bind_congr fun p hp => ?_
            obtain ⟨hnext, htail, hd'⟩ := hnext p hp
            simp only [hnext, hop, if_pos hlevel]
            rw [clean_bind, clean_advance, Option.bind_some, htail, clean_bind,
              clean_operation hsub t op p.1 hd', Option.bind_assoc]
            rfl
          _ = (read op.level.tighter ts).bind fun q =>
                ((Expression.binary left t op q.1).draft? l types d q.2).bind fun r =>
                  (operations sub level bound r.1).clean r.2 := by
            rw [Option.bind_comm]
            refine Option.bind_congr fun q _ => ?_
            rw [← bind_operationDraft? d left t op q.1 (t :: ts), Option.bind_assoc]
          _ = _ := by
            simp only [if_pos hlevel, Option.bind_eq_bind, Option.bind_assoc]
            refine Option.bind_congr fun q _ => ?_
            exact clean_operations hsub level hd bound _ q.2
      · simp only [if_neg hlevel]
        refine Eq.trans (Option.bind_congr fun p hp => ?_) (Option.bind_fun_some _)
        simp only [(hnext p hp).1, hop, if_neg hlevel, clean_pure]

theorem clean_climb : ∀ (bound : Nat), Compiles l types (climb bound) (Read.climb bound)
  | 0, level, d, _ => rfl
  | bound + 1, level, d, hd => by
    have ih := clean_climb bound
    rw [climb, clean_peek_bind, Draft.next]
    cases hahead : d.ahead with
    | nil =>
      have hnone : d.finish.kind.operandForm? = none := by rw [hd.finish]; rfl
      simp only [List.headD_nil, hnone]
      rfl
    | cons t ts =>
      simp only [List.headD_cons, Read.climb]
      cases t.kind.operandForm? with
      | none => rfl
      | some form =>
        have hd' : Draft.Knows { d with ahead := ts } l types := hd.write ts d.chunk
        simp only [clean_bind, clean_advance, Option.bind_some, hahead, List.tail_cons,
          clean_operand ih t form hd', Option.bind_assoc, Option.bind_eq_bind]
        refine Option.bind_congr fun p _ => ?_
        exact clean_operations ih level hd bound p.1 p.2

theorem clean_expression {d : Draft} (hd : d.Knows l types) :
    expression.clean d =
      (Read.expression d.ahead).bind fun p => p.1.draft? l types d p.2 := by
  rw [expression, clean_get_bind]
  exact clean_climb _ .or d hd

end CompileM

end BoundedLoop
