import BoundedLoop.Proofs.Codegen.Clean

/-!
# Reading on

Whatever compiles no statement reads tokens and writes code, and leaves all else in the draft as it is
(`Draft.ReadsOn`), whether it fails or not. `CompileM.ReadsOn` is the class of these computations. It is
closed under sequencing and choice, so expressions belong to it whatever tokens they find, and so do
conditions and the bounds of loops.
-/

namespace BoundedLoop

/-- From `d` to `d'` tokens are read and code is written. Nothing else changes, and no slot is taken. -/
structure Draft.ReadsOn (d d' : Draft) : Prop where
  ahead : d'.ahead <:+ d.ahead
  slots : d'.chunk.slotCount = d.chunk.slotCount
  others : d' = { d with ahead := d'.ahead, chunk := d'.chunk }

namespace Draft.ReadsOn

variable {d d' d'' : Draft}

theorem refl (d : Draft) : d.ReadsOn d := ⟨List.suffix_rfl, rfl, rfl⟩

theorem trans (h : d.ReadsOn d') (h' : d'.ReadsOn d'') : d.ReadsOn d'' := by
  refine ⟨h'.ahead.trans h.ahead, h'.slots.trans h.slots, ?_⟩
  rw [h'.others, h.others]

theorem finish (h : d.ReadsOn d') : d'.finish = d.finish := by rw [h.others]

theorem scope (h : d.ReadsOn d') : d'.scope = d.scope := by rw [h.others]

theorem depth (h : d.ReadsOn d') : d'.depth = d.depth := by rw [h.others]

theorem diagnostics (h : d.ReadsOn d') : d'.diagnostics = d.diagnostics := by rw [h.others]

/-- Writing code at the end of the chunk, or filling in what was left open there. -/
theorem write {c : Chunk} (h : c.slotCount = d.chunk.slotCount) : d.ReadsOn { d with chunk := c } :=
  ⟨List.suffix_rfl, h, rfl⟩

end Draft.ReadsOn

namespace CompileM

variable {α β : Type}

/-- A computation that only reads tokens and writes code. -/
class ReadsOn (m : CompileM α) : Prop where
  reads : ∀ d : Draft, d.ReadsOn (m.leaves d)

theorem ReadsOn.of_eq_ok {m : CompileM α} [hm : ReadsOn m] {a : α} {d d' : Draft}
    (h : m d = .ok a d') : d.ReadsOn d' := by
  have hreads := hm.reads d
  unfold leaves at hreads
  rw [h] at hreads
  exact hreads

/-! ### Sequencing and choice -/

instance readsOn_pure (a : α) : ReadsOn (pure a) := ⟨fun d => .refl d⟩

instance readsOn_get : ReadsOn (get : CompileM Draft) := ⟨fun d => .refl d⟩

instance readsOn_fail (site : Site) (problem : Problem) :
    ReadsOn (fail site problem : CompileM α) :=
  ⟨fun d => .refl d⟩

instance readsOn_bind (m : CompileM α) (f : α → CompileM β) [hm : ReadsOn m]
    [hf : ∀ a, ReadsOn (f a)] : ReadsOn (m >>= f) := by
  constructor
  intro d
  have h := hm.reads d
  rw [leaves_bind]
  unfold leaves at h
  cases hrun : m d with
  | ok a d' =>
    rw [hrun] at h
    exact h.trans ((hf a).reads d')
  | error e d' =>
    rw [hrun] at h
    exact h

instance readsOn_ite (c : Prop) [Decidable c] (a b : CompileM α) [ReadsOn a] [ReadsOn b] :
    ReadsOn (if c then a else b) := by
  split <;> infer_instance

instance readsOn_forM (f : β → CompileM PUnit) [∀ b, ReadsOn (f b)] :
    ∀ l : List β, ReadsOn (l.forM f)
  | [] => readsOn_pure _
  | b :: l => by
    have := readsOn_forM f l
    exact readsOn_bind (f b) fun _ => l.forM f

theorem readsOn_modify {g : Draft → Draft} (h : ∀ d : Draft, d.ReadsOn (g d)) :
    ReadsOn (modify g : CompileM PUnit) :=
  ⟨h⟩

/-! ### Tokens and code -/

instance readsOn_peek : ReadsOn peek := ⟨fun d => .refl d⟩

instance readsOn_advance : ReadsOn advance :=
  readsOn_modify fun d => ⟨d.ahead.tail_suffix, rfl, rfl⟩

instance readsOn_accept (kind : Token.Kind) : ReadsOn (accept kind) := by
  unfold accept; infer_instance

instance readsOn_missing (wanted : Expectation) (token : Token) :
    ReadsOn (missing wanted token : CompileM α) := by
  unfold missing; infer_instance

instance readsOn_expect (kind : Token.Kind) (wanted : Expectation) :
    ReadsOn (expect kind wanted) := by
  unfold expect; infer_instance

instance readsOn_emit (i : Instruction) (line : Nat) : ReadsOn (emit i line) :=
  readsOn_modify fun d => .write (d.chunk.slotCount_emit i line)

instance readsOn_reserve (branch : Branch) (line : Nat) : ReadsOn (reserve branch line) := by
  have : ReadsOn (modify fun d => { d with chunk := d.chunk.reserve branch line }) :=
    readsOn_modify fun d => .write (d.chunk.slotCount_emit _ line)
  unfold reserve; infer_instance

instance readsOn_patch (site : Site) (label : Chunk.Label) : ReadsOn (patch site label) := by
  unfold patch
  refine @readsOn_bind _ _ _ _ _ fun d => ?_
  split
  · infer_instance
  · exact readsOn_modify fun d => .write rfl

instance readsOn_jumpBack (site : Site) (target line : Nat) :
    ReadsOn (jumpBack site target line) := by
  unfold jumpBack
  refine @readsOn_bind _ _ _ _ _ fun d => ?_
  split <;> infer_instance

/-! ### Expressions -/

instance readsOn_constant (token : Token) : ReadsOn (constant token) := by
  unfold constant
  split <;> infer_instance

instance readsOn_reference (token : Token) : ReadsOn (reference token) := by
  unfold reference
  split
  · infer_instance
  · refine @readsOn_bind _ _ _ _ _ fun d => ?_
    split <;> infer_instance

section Operands

variable (sub : Level → CompileM Ty) [∀ level, ReadsOn (sub level)]

instance readsOn_operand (token : Token) (form : OperandForm) :
    ReadsOn (operand sub token form) := by
  cases form <;> unfold operand <;> infer_instance

instance readsOn_logicalOperand (token : Token) (op : BinaryOp) (left : Ty) :
    ReadsOn (logicalOperand sub token op left) := by
  unfold logicalOperand; infer_instance

instance readsOn_onNumbers (token : Token) (op : BinaryOp) (left : Ty) (code : List Instruction)
    (ty : Ty) : ReadsOn (onNumbers sub token op left code ty) := by
  unfold onNumbers; infer_instance

instance readsOn_operation (token : Token) (op : BinaryOp) (left : Ty) :
    ReadsOn (operation sub token op left) := by
  cases op <;> unfold operation <;> infer_instance

instance readsOn_operations (level : Level) :
    ∀ (bound : Nat) (left : Ty), ReadsOn (operations sub level bound left)
  | 0, left => readsOn_pure left
  | bound + 1, left => by
    have := readsOn_operations level bound
    unfold operations
    refine @readsOn_bind _ _ _ _ _ fun token => ?_
    split <;> infer_instance

end Operands

instance readsOn_climb : ∀ (bound : Nat) (level : Level), ReadsOn (climb bound level)
  | 0, _ => by
    unfold climb; infer_instance
  | bound + 1, level => by
    have := readsOn_climb bound
    unfold climb
    refine @readsOn_bind _ _ _ _ _ fun token => ?_
    split <;> infer_instance

instance readsOn_expression : ReadsOn expression := by
  unfold expression; infer_instance

instance readsOn_condition (keyword : Token) : ReadsOn (condition keyword) := by
  unfold condition; infer_instance

instance readsOn_loopBound : ReadsOn loopBound := by
  unfold loopBound; infer_instance

end CompileM

end BoundedLoop
