import BoundedLoop.Proofs.Codegen.Expression
import BoundedLoop.Proofs.Recovery.Reading
import BoundedLoop.Proofs.Syntax.Checks

/-!
# Expressions compiled on any draft

Compiling an expression looks at nothing of a draft but the variables that can be read. Whatever the
draft, `Settles` says how it ends where the tokens ahead have a tree: with the type of the tree and its
code, or with a diagnostic about the first check of the tree that fails. Jumps that are too long are
left out; nothing else can go wrong.
-/

namespace BoundedLoop

/-- The types of the variables that can be read. -/
def Draft.types (d : Draft) : Types := fun name =>
  (CompileM.readable? d.scope name).map Prod.snd

/-- The slots of the variables that can be read. -/
def Draft.slot (d : Draft) (name : String) : UInt8 :=
  ((CompileM.readable? d.scope name).map Prod.fst).getD 0

namespace CompileM

section Clean

variable {α β : Type} {m : CompileM α} {f : α → CompileM β} {a : α} {d d' : Draft}
  {ok : β → Draft → Prop} {error : Diagnostic → Draft → Prop}

theorem eq_ok_of_clean (h : m.clean d = some (a, d')) : m d = .ok a d' := by
  unfold clean at h
  cases hrun : m d with
  | error e d' => simp [hrun] at h
  | ok a' d' =>
    simp only [hrun, Option.ite_none_right_eq_some, Option.some.injEq, Prod.mk.injEq] at h
    obtain ⟨-, rfl, rfl⟩ := h
    rfl

/-- What follows a computation that goes well starts from where that one ended. -/
theorem bind_apply_of_clean (h : m.clean d = some (a, d')) : (m >>= f) d = f a d' := by
  show EStateM.bind m f d = _
  rw [EStateM.bind, eq_ok_of_clean h]

theorem ends_bind_iff_of_clean (h : m.clean d = some (a, d')) :
    Ends (m >>= f) d ok error ↔ Ends (f a) d' ok error := by
  unfold Ends
  rw [bind_apply_of_clean h]

theorem ends_bind_of_clean (h : m.clean d = some (a, d')) (hf : Ends (f a) d' ok error) :
    Ends (m >>= f) d ok error :=
  (ends_bind_iff_of_clean h).2 hf

theorem ends_get_bind {f : Draft → CompileM β} (h : Ends (f d) d ok error) :
    Ends (get >>= f) d ok error :=
  h

end Clean

/-- The draft behind the expression `e`, which was ahead of `d`, with `rest` ahead. -/
def behind (d : Draft) (e : Expression) (rest : List Token) : Draft :=
  { d with ahead := rest, chunk := d.chunk.append (e.code d.slot) }

/-- From `d₁` on, compiling the expression `e` that was ahead of `d` ends as it should: with its type
and code, or with a diagnostic about its first violation. -/
def Settles (d : Draft) (e : Expression) (rest : List Token) (m : CompileM Ty) (d₁ : Draft) : Prop :=
  Ends m d₁ (fun ty d' => e.type? d.types = some ty ∧ d' = behind d e rest)
    fun found d' => d'.diagnostics = d.diagnostics ∧
      ∃ c, judge d.types e.checks = .error c ∧ c.Blames found

/-- `sub` compiles what `read` reads. -/
def SettlesAll (sub : Level → CompileM Ty) (read : Level → Reader Expression) : Prop :=
  ∀ level d e rest, d.finish.kind = .eof → read level d.ahead = some (e, rest) →
    (e.code d.slot).Fits → Settles d e rest (sub level) d

variable {sub : Level → CompileM Ty} {read : Level → Reader Expression} {d : Draft}
  {e left right : Expression} {rest : List Token} {t : Token}

/-! ### Operands -/

theorem types_eq_some {slot : UInt8} {ty : Ty} {name : String}
    (h : readable? d.scope name = some (slot, ty)) : d.types name = some ty ∧ d.slot name = slot := by
  simp [Draft.types, Draft.slot, h]

theorem settles_reference {name : String} (hname : t.variableName? = some name) :
    Settles d (.reference t name) d.ahead (reference t) d := by
  unfold Settles reference
  rw [hname]
  refine ends_get_bind ?_
  cases hread : readable? d.scope name with
  | none =>
    have hty : d.types name = none := by simp [Draft.types, hread]
    exact ⟨rfl, .read t name, if_neg (not_not.2 hty), rfl, rfl⟩
  | some p =>
    obtain ⟨slot, ty⟩ := p
    obtain ⟨hty, hslot⟩ := types_eq_some hread
    refine ⟨hty, ?_⟩
    simp only [behind, Expression.code, hslot, Chunk.emit_eq_append]

theorem settles_operand (hsub : SettlesAll sub read) {form : OperandForm}
    (hfinish : d.finish.kind = .eof) (hread : Read.operand read t form d.ahead = some (e, rest))
    (hfits : (e.code d.slot).Fits) : Settles d e rest (operand sub t form) d := by
  cases form with
  | constant =>
    simp only [Read.operand, Option.map_eq_some_iff, Prod.mk.injEq] at hread
    obtain ⟨v, hv, rfl, rfl⟩ := hread
    simp only [operand, constant, hv]
    refine ends_bind_of_clean (clean_emit _ _ d) ⟨rfl, ?_⟩
    rfl
  | reference =>
    simp only [Read.operand, Option.map_eq_some_iff, Prod.mk.injEq] at hread
    obtain ⟨name, hname, rfl, rfl⟩ := hread
    exact settles_reference hname
  | grouping =>
    simp only [Read.operand, Option.bind_eq_bind, Option.bind_eq_some_iff, Option.pure_def,
      Option.some.injEq, Prod.mk.injEq, Prod.exists] at hread
    obtain ⟨inner, ts, hinner, closing, ts', hclosing, rfl, rfl⟩ := hread
    refine Ends.bind (hsub .or d inner ts hfinish hinner hfits) ?_
    rintro ty _ ⟨hty, rfl⟩
    have hexpect := clean_expect (.symbol .rightParen) (by simp) .rightParen
      (d := behind d inner ts) hfinish
    rw [behind, hclosing] at hexpect
    exact ends_bind_of_clean hexpect ⟨hty, rfl⟩
  | negation =>
    simp only [Read.operand, Option.bind_eq_bind, Option.bind_eq_some_iff, Option.pure_def,
      Option.some.injEq, Prod.mk.injEq, Prod.exists] at hread
    obtain ⟨inner, ts, hinner, rfl, rfl⟩ := hread
    have hinnerFits : (inner.code d.slot).Fits := ((Fragment.fits_append ..).1 hfits).1
    refine Ends.bind ((hsub .unary d inner ts hfinish hinner hinnerFits).mono (fun _ _ h => h) ?_) ?_
    · rintro found d' ⟨hd, c, hc, hblames⟩
      exact ⟨hd, c, judge_append_of_error hc _, hblames⟩
    rintro ty _ ⟨hty, rfl⟩
    by_cases hb : ty = .boolean
    · subst hb
      rw [if_pos rfl]
      refine ends_bind_of_clean (clean_emit _ _ _) ⟨?_, ?_⟩
      · simp [Expression.type?, hty]
      · simp [behind, Expression.code]
    · rw [if_neg hb]
      have hnone : (Expression.negation t inner).type? d.types = none := by
        simp [Expression.type?, hty, hb]
      refine ⟨rfl, .operator t (.negation t inner), ?_, rfl, rfl⟩
      rw [Expression.checks, judge_append_of_ok (Expression.judge_checks_of_type? hty)]
      exact if_neg (not_not.2 hnone)

/-! ### Operations -/

theorem judge_binary_of_right {op : BinaryOp} {types : Types} {lty : Ty} {c : Check}
    (hleft : left.type? types = some lty) (h : judge types right.checks = .error c) :
    judge types (Expression.binary left t op right).checks = .error c := by
  refine judge_append_of_error ?_ _
  rw [judge_append_of_ok (Expression.judge_checks_of_type? hleft), h]

/-- Where both operands have types, only the operator can be to blame. -/
theorem judge_binary_of_operands {op : BinaryOp} {types : Types} {lty rty : Ty}
    (hleft : left.type? types = some lty) (hright : right.type? types = some rty)
    (hop : op.result? lty rty = none) :
    judge types (Expression.binary left t op right).checks =
      .error (.operator t (.binary left t op right)) := by
  have hnone : (Expression.binary left t op right).type? types = none := by
    simp [Expression.type?, hleft, hright, hop]
  rw [Expression.checks, List.append_assoc,
    judge_append_of_ok (Expression.judge_checks_of_type? hleft),
    judge_append_of_ok (Expression.judge_checks_of_type? hright)]
  exact if_neg (not_not.2 hnone)

theorem type?_binary {op : BinaryOp} {types : Types} {lty rty : Ty}
    (hleft : left.type? types = some lty) (hright : right.type? types = some rty) :
    (Expression.binary left t op right).type? types = op.result? lty rty := by
  simp [Expression.type?, hleft, hright]

/-- The right operand of an operation that stands in `d`. What has been written before it does not
matter. -/
theorem settles_right (hsub : SettlesAll sub read) {op : BinaryOp} {lty : Ty} {chunk : Chunk}
    {ts : List Token} {α : Type} {f : Ty → CompileM α} {ok : α → Draft → Prop}
    (hfinish : d.finish.kind = .eof) (hread : read op.level.tighter ts = some (right, rest))
    (hfits : (right.code d.slot).Fits) (hleft : left.type? d.types = some lty)
    (hf : ∀ rty, right.type? d.types = some rty →
      Ends (f rty) { d with ahead := rest, chunk := chunk.append (right.code d.slot) } ok
        fun found d' => d'.diagnostics = d.diagnostics ∧
          ∃ c, judge d.types (Expression.binary left t op right).checks = .error c ∧
            c.Blames found) :
    Ends (sub op.level.tighter >>= f) { d with ahead := ts, chunk := chunk } ok
      fun found d' => d'.diagnostics = d.diagnostics ∧
        ∃ c, judge d.types (Expression.binary left t op right).checks = .error c ∧
          c.Blames found := by
  have hrun := hsub op.level.tighter { d with ahead := ts, chunk := chunk } right rest hfinish hread
    hfits
  refine Ends.bind (hrun.mono (fun _ _ h => h) ?_) ?_
  · rintro found d' ⟨hd', c, hc, hblames⟩
    exact ⟨hd', c, judge_binary_of_right hleft hc, hblames⟩
  · rintro rty _ ⟨hrty, rfl⟩
    exact hf rty hrty

/-- An operator whose instructions follow the code of both operands. -/
theorem settles_onNumbers (hsub : SettlesAll sub read) {op : BinaryOp} {lty : Ty} (ty : Ty)
    {ts : List Token} (hfinish : d.finish.kind = .eof)
    (hread : read op.level.tighter ts = some (right, rest))
    (hfits : ((Expression.binary left t op right).code d.slot).Fits)
    (hleft : left.type? d.types = some lty)
    (hresult : ∀ rty, op.result? lty rty =
      if lty = .number ∧ rty = .number then some ty else none)
    (hcode : ∀ code, op.code t.line code = code ++ op.instructions.map (.op · t.line)) :
    Settles d (.binary left t op right) rest (onNumbers sub t op lty op.instructions ty)
      (behind d left ts) := by
  simp only [Expression.code, hcode, Fragment.fits_append] at hfits
  refine settles_right hsub hfinish hread hfits.2.1 hleft fun rty hright => ?_
  by_cases hty : lty = .number ∧ rty = .number
  · rw [if_pos hty]
    refine ends_bind_of_clean (clean_forM_emit t.line op.instructions _) ⟨?_, ?_⟩
    · rw [type?_binary hleft hright, hresult, if_pos hty]
    · simp [behind, Expression.code, hcode]
  · rw [if_neg hty]
    refine ⟨rfl, _, judge_binary_of_operands hleft hright ?_, rfl, rfl⟩
    rw [hresult, if_neg hty]

/-- The right operand of `and` and `or`, and the jump over it that was written in front. -/
theorem settles_jumpOver (hsub : SettlesAll sub read) {op : BinaryOp} {lty : Ty} {ts : List Token}
    {a : Fragment} (branch : Branch) (hfinish : d.finish.kind = .eof)
    (hread : read op.level.tighter ts = some (right, rest))
    (hfits : (right.code d.slot).Fits) (hjump : FitsJump ((right.code d.slot).size + 1))
    (hleft : left.type? d.types = some lty)
    (hresult : ∀ rty, op.result? lty rty =
      if lty = .boolean ∧ rty = .boolean then some .boolean else none)
    (hcode : (Expression.binary left t op right).code d.slot = a ++
      .jump branch ((right.code d.slot).size + 1) t.line :: .op .pop t.line :: right.code d.slot) :
    Settles d (.binary left t op right) rest
      (do
        logicalOperand sub t op lty
        patch t.toSite ⟨d.chunk.size + a.size + 1⟩
        return Ty.boolean)
      { d with
        ahead := ts
        chunk := d.chunk.append (a ++ [.jump branch (-1) t.line, .op .pop t.line]) } := by
  have hwritten : (d.chunk.append (a ++ [.jump branch (-1) t.line, .op .pop t.line])).append
      (right.code d.slot) =
      d.chunk.append (a ++ .jump branch (-1) t.line :: .op .pop t.line :: right.code d.slot) := by
    simp
  have hsize : Fragment.size (.op .pop t.line :: right.code d.slot) =
      (right.code d.slot).size + 1 := by
    rw [Fragment.size_cons_op, Instruction.size_pop, Nat.add_comm]
  unfold logicalOperand
  simp only [bind_assoc]
  refine settles_right hsub hfinish hread hfits hleft fun rty hright => ?_
  by_cases hty : lty = .boolean ∧ rty = .boolean
  · rw [if_pos hty, pure_bind]
    have hpatch := clean_patch_of_eq (d := { d with
      ahead := rest
      chunk := (d.chunk.append (a ++ [.jump branch (-1) t.line, .op .pop t.line])).append
        (right.code d.slot) }) t.toSite hwritten rfl
    rw [hsize, Int.natCast_add, Int.natCast_one, if_pos hjump] at hpatch
    refine ends_bind_of_clean hpatch ⟨?_, ?_⟩
    · rw [type?_binary hleft hright, hresult, if_pos hty]
    · simp only [behind, hcode]
  · rw [if_neg hty]
    refine ⟨rfl, _, judge_binary_of_operands hleft hright ?_, rfl, rfl⟩
    rw [hresult, if_neg hty]

theorem settles_and (hsub : SettlesAll sub read) {lty : Ty} {ts : List Token}
    (hfinish : d.finish.kind = .eof) (hread : read BinaryOp.and.level.tighter ts = some (right, rest))
    (hfits : ((Expression.binary left t .and right).code d.slot).Fits)
    (hleft : left.type? d.types = some lty) :
    Settles d (.binary left t .and right) rest (operation sub t .and lty) (behind d left ts) := by
  simp only [Expression.code, BinaryOp.code, Fragment.fits_append, Fragment.fits_cons_jump,
    Fragment.fits_cons_op] at hfits
  have hover := settles_jumpOver (a := left.code d.slot) (t := t) hsub .ifFalse hfinish
    hread hfits.2.2 hfits.2.1 hleft (BinaryOp.result?_and lty) rfl
  refine ends_bind_of_clean (clean_reserve _ _ _) (ends_bind_of_clean (clean_emit _ _ _) ?_)
  simpa [Settles, behind] using hover

theorem settles_or (hsub : SettlesAll sub read) {lty : Ty} {ts : List Token}
    (hfinish : d.finish.kind = .eof) (hread : read BinaryOp.or.level.tighter ts = some (right, rest))
    (hfits : ((Expression.binary left t .or right).code d.slot).Fits)
    (hleft : left.type? d.types = some lty) :
    Settles d (.binary left t .or right) rest (operation sub t .or lty) (behind d left ts) := by
  simp only [Expression.code, BinaryOp.code, Fragment.fits_append, Fragment.fits_cons_jump,
    Fragment.fits_cons_op] at hfits
  have hover := settles_jumpOver (a := left.code d.slot ++ [.jump .ifFalse 3 t.line])
    (t := t) hsub .always hfinish hread hfits.2.2.2 hfits.2.2.1 hleft
    (BinaryOp.result?_or lty) (by simp [Expression.code, BinaryOp.code])
  -- the first of the two jumps leads over the second
  have hover3 : FitsJump (Fragment.size [.jump .always (-1) t.line]) := by
    rw [Fragment.size_cons_jump]
    decide
  have hpatch := (clean_patch_of_eq (d := { behind d left ts with
    chunk := (behind d left ts).chunk.append
      [.jump .ifFalse (-1) t.line, .jump .always (-1) t.line] }) t.toSite
    (a := []) (k := (behind d left ts).chunk.size) rfl rfl).trans (if_pos hover3)
  simp only [Settles, operation]
  rw [ends_bind_iff_of_clean (clean_reserve _ _ _), ends_bind_iff_of_clean (clean_reserve _ _ _),
    Chunk.append_append, List.cons_append, List.nil_append, ends_bind_iff_of_clean hpatch,
    ends_bind_iff_of_clean (clean_emit _ _ _)]
  simpa [Settles, behind, Nat.add_assoc] using hover

theorem settles_operation (hsub : SettlesAll sub read) {op : BinaryOp} {lty : Ty} {ts : List Token}
    (hfinish : d.finish.kind = .eof) (hread : read op.level.tighter ts = some (right, rest))
    (hfits : ((Expression.binary left t op right).code d.slot).Fits)
    (hleft : left.type? d.types = some lty) :
    Settles d (.binary left t op right) rest (operation sub t op lty) (behind d left ts) := by
  cases op with
  | or => exact settles_or hsub hfinish hread hfits hleft
  | and => exact settles_and hsub hfinish hread hfits hleft
  | equal =>
    have hright : (right.code d.slot).Fits := by
      simp only [Expression.code, BinaryOp.code, Fragment.fits_append] at hfits
      exact hfits.2.1
    refine settles_right hsub hfinish hread hright hleft fun rty hright => ?_
    by_cases hty : lty = rty
    · rw [if_pos hty]
      refine ends_bind_of_clean (clean_emit _ _ _) ⟨?_, ?_⟩
      · rw [type?_binary hleft hright, BinaryOp.result?, if_pos hty]
      · simp [behind, Expression.code, BinaryOp.code, BinaryOp.instructions]
    · rw [if_neg hty]
      refine ⟨rfl, _, judge_binary_of_operands hleft hright ?_, rfl, rfl⟩
      rw [BinaryOp.result?, if_neg hty]
  | less | lessEqual | greater | greaterEqual | plus | star =>
    refine settles_onNumbers hsub _ hfinish hread hfits hleft (fun rty => ?_) fun _ => rfl
    cases lty <;> cases rty <;> rfl

/-! ### Sequences of operations -/

/-- Reading on behind a left operand only adds to it: its checks come first. -/
theorem checks_operations (level : Level) : ∀ (bound : Nat) {left e : Expression}
    {ts rest : List Token}, Read.operations read level bound left ts = some (e, rest) →
    left.checks <+: e.checks ∧ ∀ slot, left.code slot <+: e.code slot
  | 0, left, e, ts, rest, h => by
    cases h
    exact ⟨List.prefix_rfl, fun _ => List.prefix_rfl⟩
  | bound + 1, left, e, [], rest, h => by
    cases h
    exact ⟨List.prefix_rfl, fun _ => List.prefix_rfl⟩
  | bound + 1, left, e, t :: ts, rest, h => by
    simp only [Read.operations] at h
    split at h
    · cases h
      exact ⟨List.prefix_rfl, fun _ => List.prefix_rfl⟩
    · split at h
      · simp only [Option.bind_eq_bind, Option.bind_eq_some_iff, Prod.exists] at h
        obtain ⟨right, ts', -, h⟩ := h
        obtain ⟨hchecks, hcode⟩ := checks_operations level bound h
        refine ⟨List.IsPrefix.trans ?_ hchecks, fun slot => List.IsPrefix.trans ?_ (hcode slot)⟩
        · rw [Expression.checks, List.append_assoc]
          exact List.prefix_append _ _
        · exact List.prefix_append _ _
      · cases h
        exact ⟨List.prefix_rfl, fun _ => List.prefix_rfl⟩

theorem judge_of_start {types : Types} {a b : List Check} {c : Check} (h : a <+: b)
    (ha : judge types a = .error c) : judge types b = .error c := by
  obtain ⟨more, rfl⟩ := h
  exact judge_append_of_error ha more

theorem fits_of_start {a b : Fragment} (hb : b.Fits) (h : a <+: b) : a.Fits :=
  fun i hi => hb i (h.subset hi)

theorem next_of_cons {d : Draft} {ts : List Token} (h : d.ahead = t :: ts) : d.next = t := by
  rw [Draft.next, h]
  rfl

/-- The end of the input is no operator. -/
theorem binaryOp?_next_of_nil {d : Draft} (hfinish : d.finish.kind = .eof) (h : d.ahead = []) :
    d.next.kind.binaryOp? = none := by
  rw [Draft.next, h]
  simp [hfinish, Token.Kind.binaryOp?]

theorem settles_done {lty : Ty} {ts : List Token} (hleft : left.type? d.types = some lty) :
    Settles d left ts (pure lty) (behind d left ts) :=
  ⟨hleft, rfl⟩

/-- Going on behind the left operand. The induction is on the number of operators that may follow; the
left operand grows by one operation each time, and `d` is the draft in front of all of it. -/
theorem settles_operations (hsub : SettlesAll sub read) {level : Level} : ∀ (bound : Nat)
    {left e : Expression} {lty : Ty} {ts rest : List Token}, d.finish.kind = .eof →
    Read.operations read level bound left ts = some (e, rest) → (e.code d.slot).Fits →
    left.type? d.types = some lty →
    Settles d e rest (operations sub level bound lty) (behind d left ts)
  | 0, left, e, lty, ts, rest, _, hread, _, hleft => by
    cases hread
    exact settles_done hleft
  | bound + 1, left, e, lty, [], rest, hfinish, hread, _, hleft => by
    cases hread
    have hnone : (behind d left []).next.kind.binaryOp? = none := binaryOp?_next_of_nil hfinish rfl
    refine Ends.peek_bind ?_
    rw [hnone]
    exact settles_done hleft
  | bound + 1, left, e, lty, t :: ts, rest, hfinish, hread, hfits, hleft => by
    refine Ends.peek_bind ?_
    rw [show (behind d left (t :: ts)).next = t from rfl]
    simp only [Read.operations] at hread
    cases hop : t.kind.binaryOp? with
    | none =>
      rw [hop] at hread
      cases hread
      exact settles_done hleft
    | some op =>
      simp only [hop] at hread ⊢
      by_cases hlevel : level ≤ op.level
      · simp only [if_pos hlevel, Option.bind_eq_bind, Option.bind_eq_some_iff, Prod.exists] at hread
        obtain ⟨right, ts', hright, hread⟩ := hread
        obtain ⟨hchecks, hcode⟩ := checks_operations level bound hread
        rw [if_pos hlevel]
        refine ends_bind_of_clean (clean_advance _) ?_
        refine Ends.bind ((settles_operation hsub hfinish hright
          (fits_of_start hfits (hcode d.slot)) hleft).mono (fun _ _ h => h) ?_) ?_
        · rintro found d' ⟨hd', c, hc, hblames⟩
          exact ⟨hd', c, judge_of_start hchecks hc, hblames⟩
        · rintro ty _ ⟨hty, rfl⟩
          exact settles_operations hsub bound hfinish hread hfits hty
      · rw [if_neg hlevel] at hread ⊢
        cases hread
        exact settles_done hleft

/-- Climbing settles the expressions that are read by climbing. -/
theorem settles_climb : ∀ n, SettlesAll (climb n) (Read.climb n)
  | 0, _, _, _, _, _, hread, _ => by cases hread
  | n + 1, level, d, e, rest, hfinish, hread, hfits => by
    cases hahead : d.ahead with
    | nil =>
      rw [hahead] at hread
      cases hread
    | cons t ts =>
      rw [hahead, Read.climb] at hread
      refine Ends.peek_bind ?_
      rw [next_of_cons hahead]
      cases hform : t.kind.operandForm? with
      | none =>
        rw [hform] at hread
        cases hread
      | some form =>
        simp only [hform, Option.bind_eq_bind, Option.bind_eq_some_iff, Prod.exists] at hread ⊢
        obtain ⟨left, ts', hleft, hread⟩ := hread
        obtain ⟨hchecks, hcode⟩ := checks_operations level n hread
        refine ends_bind_of_clean (clean_advance d) ?_
        rw [hahead, List.tail_cons]
        have hoperand := settles_operand (d := { d with ahead := ts }) (settles_climb n) hfinish hleft
          (fits_of_start hfits (hcode d.slot))
        refine Ends.bind (hoperand.mono (fun _ _ h => h) ?_) ?_
        · rintro found d' ⟨hd', c, hc, hblames⟩
          exact ⟨hd', c, judge_of_start hchecks hc, hblames⟩
        · rintro ty _ ⟨hty, rfl⟩
          exact settles_operations (d := d) (settles_climb n) n hfinish hread hfits hty

theorem settles_expression (hfinish : d.finish.kind = .eof)
    (hread : Read.expression d.ahead = some (e, rest)) (hfits : (e.code d.slot).Fits) :
    Settles d e rest expression d :=
  ends_get_bind (settles_climb _ .or d e rest hfinish hread hfits)

/-- A well-typed expression is compiled to its code. -/
theorem expression_of_type? {ty : Ty} (hfinish : d.finish.kind = .eof)
    (hread : Read.expression d.ahead = some (e, rest)) (hfits : (e.code d.slot).Fits)
    (hty : e.type? d.types = some ty) : expression d = .ok ty (behind d e rest) := by
  have h := settles_expression hfinish hread hfits
  unfold Settles Ends at h
  cases hrun : expression d with
  | ok ty' d' =>
    rw [hrun] at h
    obtain ⟨hty', rfl⟩ := h
    rw [Option.some.inj (hty.symm.trans hty')]
  | error found d' =>
    rw [hrun] at h
    obtain ⟨-, c, hc, -⟩ := h
    rw [Expression.judge_checks_of_type? hty] at hc
    cases hc

/-- An expression that violates a rule is refused for its first violation. -/
theorem expression_of_judge {c : Check} (hfinish : d.finish.kind = .eof)
    (hread : Read.expression d.ahead = some (e, rest)) (hfits : (e.code d.slot).Fits)
    (hc : judge d.types e.checks = .error c) :
    ∃ found d', expression d = .error found d' ∧ d'.diagnostics = d.diagnostics ∧
      c.Blames found := by
  have h := settles_expression hfinish hread hfits
  unfold Settles Ends at h
  cases hrun : expression d with
  | ok ty d' =>
    rw [hrun] at h
    rw [Expression.judge_checks_of_type? h.1] at hc
    cases hc
  | error found d' =>
    rw [hrun] at h
    obtain ⟨hd', c', hc', hblames⟩ := h
    cases hc.symm.trans hc'
    exact ⟨found, d', rfl, hd', hblames⟩

end CompileM

end BoundedLoop
