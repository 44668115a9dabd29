import BoundedLoop.Proofs.Semantics.Execution

/-!
# The code of an expression computes its value

The variables lie in the slots of a layout `F`, the one behind the whole program (`Layout.Laid`).
Where the code of an expression stands in a chunk, a machine that comes there pushes the value of the
expression, or crashes for the reason that it has none (`Expression.simulates`).
-/

namespace BoundedLoop

open Machine

/-! ### Variables in slots -/

/-- The slots are those of `F`, and each variable lies in its slot. -/
structure Layout.Laid (F : Layout) (σ : Store) (slots : Array (Option Value)) : Prop where
  size : slots.size = F.length
  named : ∀ name, some name ∈ F → slots[F.index name]? = some (σ name)

namespace Layout

variable {F l : Layout} {σ : Store} {slots : Array (Option Value)} {name other : String}

theorem index_inj (h : some name ∈ F) (h' : some other ∈ F) (heq : F.index name = F.index other) :
    name = other := by
  have h₁ := getElem?_index h
  rw [heq, getElem?_index h'] at h₁
  cases h₁
  rfl

theorem Laid.assign (h : Laid F σ slots) (hname : some name ∈ F) (v : Value) :
    Laid F (Function.update σ name (some v)) (slots.setIfInBounds (F.index name) (some v)) := by
  refine ⟨by simpa using h.size, fun other hother => ?_⟩
  by_cases ho : other = name
  · subst ho
    have hlt : F.index other < slots.size := by
      rw [h.size]
      exact index_lt hother
    simp [hlt]
  · have hne : F.index name ≠ F.index other := fun heq => ho (index_inj hname hother heq).symm
    rw [Array.getElem?_setIfInBounds_ne hne, h.named other hother, Function.update_of_ne ho]

/-- A slot without a name can be written without changing a variable. -/
theorem Laid.hide (h : Laid F σ slots) {j : Nat} (hj : F[j]? = some none) (v : Value) :
    Laid F σ (slots.setIfInBounds j (some v)) := by
  refine ⟨by simpa using h.size, fun name hname => ?_⟩
  have hne : j ≠ F.index name := by
    rintro rfl
    rw [getElem?_index hname] at hj
    cases hj
  rw [Array.getElem?_setIfInBounds_ne hne, h.named name hname]

theorem Laid.lt_size (h : Laid F σ slots) {j : Nat} {owner : Option String}
    (hj : F[j]? = some owner) : j < slots.size := by
  rw [h.size]
  exact (List.getElem?_eq_some_iff.1 hj).1

end Layout

/-! ### Expressions -/

section Expressions

variable {chunk : Chunk} {F : Layout} {blamed : Nat → Prop} {σ : Store}
  {slots : Array (Option Value)} {slot : String → UInt8} {k line : Nat} {stack : List Value}

theorem simulates_exactResult {op : Opcode} {i : Instruction} {f : Int → Int → Int} {l r : Int64}
    {code : Fragment} (hold : chunk.Holds k (.op i line :: code)) (hsize : i.size = 1)
    (happly : ActionM.apply chunk.size i = ActionM.arithmetic op f) (hblame : blamed k) :
    Simulates chunk F blamed (fun v m => m = ⟨k + 1, v :: stack, slots⟩)
      ⟨k, .number r :: .number l :: stack, slots⟩ (exactResult op (f l.toInt r.toInt)) := by
  have heq := (congrFun happly ⟨k + i.size, .number r :: .number l :: stack, slots⟩).trans
    apply_arithmetic
  unfold exactResult
  cases hx : exact64? (f l.toInt r.toInt) with
  | some n =>
    rw [hx] at heq
    exact .steps (steps_of_apply hold heq) (.ok (by rw [hsize]))
  | none =>
    rw [hx] at heq
    exact fun _ => ⟨_, crashes_of_apply hold heq, rfl, hblame⟩

theorem decide_le_eq_not_lt (l r : Int64) : decide (l ≤ r) = !decide (r < l) := by
  rw [← decide_not, decide_eq_decide]
  exact Int64.not_lt.symm

/-- The instructions of an operator apply it to the topmost two values. -/
theorem BinaryOp.simulates {op : BinaryOp} (l r : Value) (hor : op ≠ .or) (hand : op ≠ .and)
    (hold : chunk.Holds k (op.instructions.map (.op · line))) (hblame : blamed k) :
    Simulates chunk F blamed
      (fun v m => m = ⟨k + Fragment.size (op.instructions.map (.op · line)), v :: stack, slots⟩)
      ⟨k, r :: l :: stack, slots⟩ (op.apply l r) := by
  cases op with
  | or => exact absurd rfl hor
  | and => exact absurd rfl hand
  | equal =>
    by_cases hty : l.ty = r.ty
    · rw [apply, if_pos hty]
      exact .steps (steps_equal hty hold) (.ok rfl)
    · rw [apply, if_neg hty]
      exact .stuck
  | less =>
    rcases l with l | l <;> rcases r with r | r
    · exact .steps (steps_less hold) (.ok rfl)
    all_goals exact .stuck
  | greater =>
    rcases l with l | l <;> rcases r with r | r
    · exact .steps (steps_greater hold) (.ok rfl)
    all_goals exact .stuck
  | lessEqual =>
    rcases l with l | l <;> rcases r with r | r
    · refine .steps (steps_greater hold) (.steps (steps_not hold.tail) (.ok ?_))
      rw [decide_le_eq_not_lt]
      rfl
    all_goals exact .stuck
  | greaterEqual =>
    rcases l with l | l <;> rcases r with r | r
    · refine .steps (steps_less hold) (.steps (steps_not hold.tail) (.ok ?_))
      rw [decide_le_eq_not_lt]
      rfl
    all_goals exact .stuck
  | plus =>
    rcases l with l | l <;> rcases r with r | r
    · exact simulates_exactResult hold rfl rfl hblame
    all_goals exact .stuck
  | star =>
    rcases l with l | l <;> rcases r with r | r
    · exact simulates_exactResult hold rfl rfl hblame
    all_goals exact .stuck

theorem Expression.simulates_reference {t : Token} {name : String} (hF : F.length ≤ Chunk.maxSlots)
    (hσ : F.Laid σ slots) (hname : some name ∈ F)
    (hold : chunk.Holds k [.op (.load (F.slot name)) t.line]) (hblame : blamed k) :
    Simulates chunk F blamed (fun v m => m = ⟨k + 2, v :: stack, slots⟩) ⟨k, stack, slots⟩
      ((reference t name).eval σ) := by
  have hslot : slots[(F.slot name).toNat]? = some (σ name) := by
    rw [Layout.toNat_slot hname hF, hσ.named name hname]
  simp only [eval]
  cases hv : σ name with
  | some v =>
    rw [hv] at hslot
    exact .steps (steps_load hslot hold) (.ok rfl)
  | none =>
    rw [hv] at hslot
    exact fun _ => ⟨_, crashes_load hslot hold, ⟨hname, rfl⟩, hblame⟩

/-- Where the left operand of `and` or `or` does not decide, it is dropped for the right one. -/
theorem Expression.simulates_right {right : Fragment} {dropped : Value} {r : Except Failure Value}
    {next : Nat} (hold : chunk.Holds k (.op .pop line :: right)) (hnext : next = k + 1 + right.size)
    (hr : Simulates chunk F blamed (fun v m => m = ⟨k + 1 + right.size, v :: stack, slots⟩)
      ⟨k + 1, stack, slots⟩ r) :
    Simulates chunk F blamed (fun v m => m = ⟨next, v :: stack, slots⟩)
      ⟨k, dropped :: stack, slots⟩ (do
        let b ← (← r).truth
        return .boolean b) := by
  subst hnext
  refine .steps (steps_pop hold) (hr.bind ?_)
  rintro v m rfl
  cases v with
  | number n => exact .stuck
  | boolean b => exact .ok rfl

theorem Expression.simulates_or {left right : Fragment} {rl rr : Except Failure Value}
    (hold : chunk.Holds k (left ++ BinaryOp.or.code line right))
    (hl : Simulates chunk F blamed (fun v m => m = ⟨k + left.size, v :: stack, slots⟩)
      ⟨k, stack, slots⟩ rl)
    (hr : Simulates chunk F blamed (fun v m => m = ⟨k + left.size + 7 + right.size, v :: stack, slots⟩)
      ⟨k + left.size + 7, stack, slots⟩ rr) :
    Simulates chunk F blamed
      (fun v m => m = ⟨k + Fragment.size (left ++ BinaryOp.or.code line right), v :: stack, slots⟩)
      ⟨k, stack, slots⟩ (do
        let b ← (← rl).truth
        if b then return .boolean true
        let b ← (← rr).truth
        return .boolean b) := by
  have hcode := hold.right
  have hend := hcode.size_le
  simp only [BinaryOp.code, Fragment.size_append, Fragment.size_cons_jump, Fragment.size_cons_op,
    Instruction.size_pop] at hcode hend ⊢
  refine hl.bind ?_
  rintro v m rfl
  rcases v with n | _ | _
  · exact .stuck
  · have htarget : k + left.size + 3 + 3 ≤ chunk.size := by omega
    refine .steps (steps_jumpIfFalse_of_false _ hcode (by omega) htarget) ?_
    exact simulates_right hcode.tail_jump.tail_jump (by omega) hr
  · refine .steps (steps_jumpIfFalse_of_true hcode) ?_
    exact .steps (steps_jump _ hcode.tail_jump (by push_cast; omega) (by omega)) (.ok rfl)

theorem Expression.simulates_and {left right : Fragment} {rl rr : Except Failure Value}
    (hold : chunk.Holds k (left ++ BinaryOp.and.code line right))
    (hl : Simulates chunk F blamed (fun v m => m = ⟨k + left.size, v :: stack, slots⟩)
      ⟨k, stack, slots⟩ rl)
    (hr : Simulates chunk F blamed (fun v m => m = ⟨k + left.size + 4 + right.size, v :: stack, slots⟩)
      ⟨k + left.size + 4, stack, slots⟩ rr) :
    Simulates chunk F blamed
      (fun v m => m = ⟨k + Fragment.size (left ++ BinaryOp.and.code line right), v :: stack, slots⟩)
      ⟨k, stack, slots⟩ (do
        let b ← (← rl).truth
        if !b then return .boolean false
        let b ← (← rr).truth
        return .boolean b) := by
  have hcode := hold.right
  have hend := hcode.size_le
  simp only [BinaryOp.code, Fragment.size_append, Fragment.size_cons_jump, Fragment.size_cons_op,
    Instruction.size_pop] at hcode hend ⊢
  refine hl.bind ?_
  rintro v m rfl
  rcases v with n | _ | _
  · exact .stuck
  · exact .steps (steps_jumpIfFalse_of_false _ hcode (by push_cast; omega) (by omega)) (.ok rfl)
  · refine .steps (steps_jumpIfFalse_of_true hcode) ?_
    exact simulates_right hcode.tail_jump (by omega) hr

/-- The code of an operator that takes both operands ends with its instructions. -/
theorem BinaryOp.code_strict {op : BinaryOp} (hor : op ≠ .or) (hand : op ≠ .and) (line : Nat)
    (right : Fragment) : op.code line right = right ++ op.instructions.map (.op · line) ∧
      0 < Fragment.size (op.instructions.map (.op · line)) := by
  cases op with
  | or => exact absurd rfl hor
  | and => exact absurd rfl hand
  | _ => exact ⟨rfl, Nat.succ_pos _⟩

/-- The code of an expression pushes its value. -/
theorem Expression.simulates (hF : F.length ≤ Chunk.maxSlots) (hσ : F.Laid σ slots)
    {e : Expression} (stack : List Value)
    (hreads : ∀ name ∈ e.reads, some name ∈ F ∧ slot name = F.slot name)
    (hold : chunk.Holds k (e.code slot))
    (hblame : ∀ o, k ≤ o → o < k + (e.code slot).size → blamed o) :
    Simulates chunk F blamed (fun v m => m = ⟨k + (e.code slot).size, v :: stack, slots⟩)
      ⟨k, stack, slots⟩ (e.eval σ) := by
  induction e generalizing k stack with
  | constant t v => exact .steps (steps_push hold) (.ok (by simp [code]))
  | reference t name =>
    obtain ⟨hname, hslot⟩ := hreads name (by simp [reads])
    simp only [code, hslot] at hold ⊢
    exact simulates_reference hF hσ hname hold (hblame k (Nat.le_refl k) (by simp [code]))
  | group opening e closing ih => exact ih stack hreads hold hblame
  | negation t e ih =>
    simp only [code, Fragment.size_append] at hold hblame ⊢
    refine (ih stack hreads hold.left fun o h₁ h₂ => hblame o h₁ (by omega)).bind ?_
    rintro v m rfl
    cases v with
    | number n => exact .stuck
    | boolean b => exact .steps (steps_not hold.right) (.ok rfl)
  | binary l t op r ihl ihr =>
    simp only [reads, List.mem_append] at hreads
    simp only [code, Fragment.size_append] at hold hblame
    have hl := ihl stack (fun name hn => hreads name (.inl hn)) hold.left
      fun o h₁ h₂ => hblame o h₁ (by omega)
    -- the right operand, wherever its code stands
    have hr : ∀ {k' : Nat} (stack : List Value), chunk.Holds k' (r.code slot) → k ≤ k' →
        k' + (r.code slot).size ≤ k + ((l.code slot).size + (op.code t.line (r.code slot)).size) →
        Simulates chunk F blamed (fun v m => m = ⟨k' + (r.code slot).size, v :: stack, slots⟩)
          ⟨k', stack, slots⟩ (r.eval σ) := fun stack hold' hk hsize =>
      ihr stack (fun name hn => hreads name (.inr hn)) hold' fun o h₁ h₂ =>
        hblame o (by omega) (by omega)
    by_cases hor : op = .or
    · subst hor
      refine simulates_or hold hl (hr stack hold.right.tail_jump.tail_jump.tail (by omega) ?_)
      simp only [BinaryOp.code, Fragment.size_cons_jump, Fragment.size_cons_op, Instruction.size_pop]
      omega
    · by_cases hand : op = .and
      · subst hand
        refine simulates_and hold hl (hr stack hold.right.tail_jump.tail (by omega) ?_)
        simp only [BinaryOp.code, Fragment.size_cons_jump, Fragment.size_cons_op,
          Instruction.size_pop]
        omega
      · obtain ⟨hcode, hpos⟩ := BinaryOp.code_strict hor hand t.line (r.code slot)
        rw [code, eval_strict hor hand]
        rw [hcode] at hold hblame hr ⊢
        simp only [Fragment.size_append] at hblame hr ⊢
        refine hl.bind ?_
        rintro v m rfl
        refine (hr _ hold.right.left (by omega) (by omega)).bind ?_
        rintro w m rfl
        rw [← Nat.add_assoc k, ← Nat.add_assoc (k + _)]
        exact BinaryOp.simulates v w hor hand hold.right.right (hblame _ (by omega) (by omega))

end Expressions

end BoundedLoop
