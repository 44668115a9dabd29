import BoundedLoop.Proofs.Semantics.Counting
import BoundedLoop.Proofs.Semantics.Effects

/-!
# What a fault leaves behind

An instruction takes its operands before anything can go wrong with them, and all else that it does
comes last. So where it faults, the machine stands behind it, without the operands that it takes
(`Instruction.operands`) or as many of them as there were, and has its slots and its fuel as before.
Bytes that are no instruction do nothing at all. `fault_leaves_behind` says this of any code and any
machine, and what follows for further steps.

`ActionM.FaultsAfter` says it of the parts of an instruction, which are put together by
`FaultsAfter.pop_bind` and `FaultsAfter.look_bind`.
-/

namespace BoundedLoop

/-- How many operands an instruction takes from the stack. What it only looks at is not taken. -/
def Instruction.operands : Instruction → Nat
  | .add | .multiply | .equal | .greater | .less => 2
  | .not | .pop => 1
  | .push _ | .jump _ | .jumpIfFalse _ | .store _ | .load _ => 0

theorem Instruction.operands_le_two (i : Instruction) : i.operands ≤ 2 := by
  cases i <;> simp only [operands] <;> omega

/-- What an instruction can fail for in code of `size` bytes, once it has been decoded. -/
def FaultCause.Executing (size : Nat) : FaultCause → Prop
  | .decode _ => False
  | .invalidJump target => target < 0 ∨ (size : Int) < target
  | _ => True

namespace Machine

/-! ### Parts of instructions -/

namespace ActionM

/-- If the action faults, it is for something that goes wrong in executing, and `count` operands are
gone but nothing else has changed. -/
def FaultsAfter {α : Type} (size count : Nat) (action : ActionM α) : Prop :=
  ∀ m cause m', action m = .error cause m' →
    cause.Executing size ∧ m' = { m with stack := m.stack.drop count }

/-- The action looks at the machine and leaves it as it is. -/
def Looks {α : Type} (size : Nat) (action : ActionM α) : Prop :=
  ∀ m, (∃ a, action m = .ok a m) ∨ ∃ cause, cause.Executing size ∧ action m = .error cause m

namespace FaultsAfter

variable {α β : Type} {size count : Nat}

/-- Taking an operand is the first thing to do, or there is none and none can be taken later. -/
theorem pop_bind {f : Value → ActionM β} (hf : ∀ v, (f v).FaultsAfter size count) :
    (pop >>= f).FaultsAfter size (count + 1) := by
  rintro ⟨k, stack, slots⟩ cause m' h
  cases stack with
  | nil =>
    cases h
    exact ⟨trivial, rfl⟩
  | cons v rest => exact hf v ⟨k, rest, slots⟩ cause m' h

theorem look_bind {action : ActionM α} {f : α → ActionM β} (haction : action.Looks size)
    (hf : ∀ a, (f a).FaultsAfter size 0) : (action >>= f).FaultsAfter size 0 := by
  intro m cause m' h
  have hbind : (action >>= f) m = EStateM.bind action f m := rfl
  rw [hbind, EStateM.bind] at h
  rcases haction m with ⟨a, ha⟩ | ⟨cause', hcause', ha⟩
  · rw [ha] at h
    exact hf a m cause m' h
  · rw [ha] at h
    cases h
    exact ⟨hcause', rfl⟩

theorem push (v : Value) : (ActionM.push v).FaultsAfter size count := by
  intro m cause m' h
  cases h

theorem pure (a : α) : (Pure.pure a : ActionM α).FaultsAfter size count := by
  intro m cause m' h
  cases h

theorem throw {cause : FaultCause} (hcause : cause.Executing size) :
    (MonadExcept.throw cause : ActionM α).FaultsAfter size 0 := by
  intro m cause' m' h
  cases h
  exact ⟨hcause, rfl⟩

/-- A jump that is not made has a target outside of the code. -/
theorem jump (distance : Int16) : (ActionM.jump size distance).FaultsAfter size 0 := by
  rintro ⟨k, stack, slots⟩ cause m' h
  rw [jump_eq] at h
  split at h
  · cases h
  · rename_i htarget
    cases h
    refine ⟨?_, rfl⟩
    show (k : Int) + distance.toInt < 0 ∨ (size : Int) < (k : Int) + distance.toInt
    omega

theorem store (slot : UInt8) (v : Value) : (ActionM.store slot v).FaultsAfter size 0 := by
  rintro ⟨k, stack, slots⟩ cause m' h
  rw [store_eq] at h
  split at h
  · cases h
  · cases h
    exact ⟨trivial, rfl⟩

end FaultsAfter

variable {size : Nat}

theorem looks_peek : peek.Looks size := by
  rintro ⟨k, stack, slots⟩
  cases stack with
  | nil => exact .inr ⟨.stackUnderflow, trivial, rfl⟩
  | cons v rest => exact .inl ⟨v, rfl⟩

theorem looks_truth (op : Opcode) (v : Value) : (truth op v).Looks size := by
  intro m
  cases v with
  | number n => exact .inr ⟨.typeMismatch op .number, trivial, rfl⟩
  | boolean b => exact .inl ⟨b, rfl⟩

theorem looks_load (slot : UInt8) : (load slot).Looks size := by
  intro m
  rw [load_eq]
  rcases m.slots[slot.toNat]? with _ | _ | v
  · exact .inr ⟨.invalidSlot slot m.slots.size, trivial, rfl⟩
  · exact .inr ⟨.uninitializedSlot slot, trivial, rfl⟩
  · exact .inl ⟨v, rfl⟩

/-- An operator on two numbers takes both operands before it looks at them. -/
theorem faultsAfter_popNumbers_bind (op : Opcode) {f : Int64 × Int64 → ActionM Unit}
    (hf : ∀ p, (f p).FaultsAfter size 0) : (popNumbers op >>= f).FaultsAfter size 2 := by
  rintro ⟨k, stack, slots⟩ cause m' h
  rcases stack with _ | ⟨right, _ | ⟨left, rest⟩⟩
  · cases h
    exact ⟨trivial, rfl⟩
  · cases h
    exact ⟨trivial, rfl⟩
  · cases left with
    | boolean b =>
      cases h
      exact ⟨trivial, rfl⟩
    | number l =>
      cases right with
      | boolean b =>
        cases h
        exact ⟨trivial, rfl⟩
      | number r => exact hf (l, r) ⟨k, rest, slots⟩ cause m' h

end ActionM

open ActionM

/-! ### Instructions -/

/-- Every instruction takes its operands before it can fault, one case for each. -/
theorem faultsAfter_apply (size : Nat) (i : Instruction) :
    (ActionM.apply size i).FaultsAfter size i.operands := by
  cases i with
  | add | multiply =>
    refine faultsAfter_popNumbers_bind _ ?_
    rintro ⟨l, r⟩
    simp only
    generalize exact64? _ = sum
    cases sum with
    | some n => exact .push _
    | none => exact .throw trivial
  | greater | less => exact faultsAfter_popNumbers_bind _ fun p => .push _
  | equal =>
    refine .pop_bind fun right => .pop_bind fun left => ?_
    show (if left.ty = right.ty then ActionM.push (.boolean (left = right))
      else throw (.operandMismatch .equal left.ty right.ty) : ActionM Unit).FaultsAfter size 0
    split
    · exact .push _
    · exact .throw trivial
  | not => exact .pop_bind fun v => .look_bind (looks_truth .not v) fun b => .push _
  | push v => exact .push v
  | pop => exact .pop_bind fun v => .pure _
  | jump distance => exact .jump distance
  | jumpIfFalse distance =>
    refine .look_bind looks_peek fun v => .look_bind (looks_truth .jumpIfFalse v) fun b => ?_
    cases b with
    | true => exact .pure _
    | false => exact .jump distance
  | store slot => exact .look_bind looks_peek fun v => .store slot v
  | load slot => exact .look_bind (looks_load slot) fun v => .push v

variable {chunk : Chunk} {m m' : Machine} {f : Fault}

/-- All ways in which executing can fault: there is no instruction, or the machine stands behind it
with its operands taken. -/
theorem execute_error_cases (h : m.execute chunk = .error f m') :
    (∃ e, chunk.decode m.ip = .error e ∧ f = .of chunk m.ip (.decode e) ∧ m' = m) ∨
    ∃ i cause, chunk.decode m.ip = .ok i ∧ f = .of chunk m.ip cause ∧ cause.Executing chunk.size ∧
      m' = ⟨m.ip + i.size, m.stack.drop i.operands, m.slots⟩ := by
  have hexecutes := m.executes chunk
  rw [h] at hexecutes
  cases hexecutes with
  | undecoded hdecode => exact .inl ⟨_, hdecode, rfl, rfl⟩
  | faults hdecode happly _ =>
    obtain ⟨hcause, rfl⟩ := faultsAfter_apply chunk.size _ _ _ _ happly
    exact .inr ⟨_, _, hdecode, rfl, hcause, rfl⟩

end Machine

open Machine

/-- A fault changes no slot, takes at most two operands from the stack, and costs no fuel. Where there
is no instruction, the machine stays as it is, and each further step with fuel faults in the same way.
Any other fault leaves the machine behind the instruction, whatever its operands and also if it was to
jump, so that a further step goes on with what stands there. -/
theorem fault_leaves_behind {chunk : Chunk} {m m' : Machine} {f : Fault}
    (h : m.execute chunk = .error f m') :
    m'.slots = m.slots ∧
    (∃ taken, m.stack = taken ++ m'.stack ∧ taken.length ≤ 2) ∧
    (m.isFinished chunk = false →
      ∀ fuel : Fuel, fuel.isPositive = true → m.step chunk fuel = (.fault f, fuel, m')) ∧
    (∀ e, f.cause = .decode e → m'.ip = m.ip ∧ m'.stack = m.stack ∧
      (m.isFinished chunk = false →
        ∀ fuel : Fuel, fuel.isPositive = true → m'.step chunk fuel = (.fault f, fuel, m'))) ∧
    ((∀ e, f.cause ≠ .decode e) → ∃ i, chunk.decode m.ip = .ok i ∧
      m'.ip = m.ip + i.size ∧ m'.stack = m.stack.drop i.operands ∧
      (∀ target, f.cause = .invalidJump target → (m'.ip : Int) ≠ target) ∧
      ∀ fuel : Fuel, fuel.isPositive = true → m'.step chunk fuel =
        if m.ip + i.size = chunk.size then (m'.result chunk, fuel, m')
        else stepOn chunk fuel (m'.execute chunk)) := by
  have hcosts : m.isFinished chunk = false →
      ∀ fuel : Fuel, fuel.isPositive = true → m.step chunk fuel = (.fault f, fuel, m') := by
    intro hfin fuel hfuel
    rw [step_eq, hfin, if_neg Bool.false_ne_true, if_pos hfuel, h, stepOn]
  rcases execute_error_cases h with ⟨e, hdecode, rfl, rfl⟩ | ⟨i, cause, hdecode, rfl, hcause, rfl⟩
  · refine ⟨rfl, ⟨[], rfl, Nat.zero_le 2⟩, hcosts, fun e' _ => ⟨rfl, rfl, hcosts⟩, ?_⟩
    intro hother
    exact absurd rfl (hother e)
  · have hend : m.ip + i.size ≤ chunk.size := Chunk.add_size_le_of_decode hdecode
    refine ⟨rfl, ⟨m.stack.take i.operands, (List.take_append_drop _ _).symm, ?_⟩, hcosts, ?_, ?_⟩
    · rw [List.length_take]
      exact Nat.le_trans (Nat.min_le_left _ _) i.operands_le_two
    · rintro e rfl
      exact hcause.elim
    · intro _
      refine ⟨i, hdecode, rfl, rfl, ?_, ?_⟩
      · rintro target rfl
        have houtside : target < 0 ∨ (chunk.size : Int) < target := hcause
        show ((m.ip + i.size : Nat) : Int) ≠ target
        omega
      · intro fuel hfuel
        have hfin : Machine.isFinished chunk ⟨m.ip + i.size, m.stack.drop i.operands, m.slots⟩ =
            decide (m.ip + i.size = chunk.size) := by
          show decide (chunk.size ≤ m.ip + i.size) = _
          rw [decide_eq_decide]
          omega
        rw [step_eq, hfin, if_pos hfuel]
        simp only [decide_eq_true_eq]

/-- Code that adds a truth value to a number, and then goes on with a byte that is no instruction. -/
def mixedCode : Chunk where
  cells := #[⟨0, 1⟩, ⟨12, 2⟩]

/-- The sum takes both operands and leaves the third value; behind it every step stops at the same
byte. -/
theorem fault_leaves_behind_mixedCode :
    Machine.execute mixedCode ⟨0, [.boolean true, .number 5, .number 7], #[]⟩ =
      .error ⟨.operandMismatch .add .number .boolean, 0, some 1⟩ ⟨1, [.number 7], #[]⟩ ∧
    Machine.step mixedCode ⟨3⟩ ⟨0, [.boolean true, .number 5, .number 7], #[]⟩ =
      (.fault ⟨.operandMismatch .add .number .boolean, 0, some 1⟩, ⟨3⟩, ⟨1, [.number 7], #[]⟩) ∧
    Machine.step mixedCode ⟨3⟩ ⟨1, [.number 7], #[]⟩ =
      (.fault ⟨.decode (.invalidOpcode 12), 1, some 2⟩, ⟨3⟩, ⟨1, [.number 7], #[]⟩) := by
  have hsum : Machine.execute mixedCode ⟨0, [.boolean true, .number 5, .number 7], #[]⟩ =
      .error ⟨.operandMismatch .add .number .boolean, 0, some 1⟩ ⟨1, [.number 7], #[]⟩ := by rfl
  have hbyte : Machine.execute mixedCode ⟨1, [.number 7], #[]⟩ =
      .error ⟨.decode (.invalidOpcode 12), 1, some 2⟩ ⟨1, [.number 7], #[]⟩ := by rfl
  refine ⟨hsum, (fault_leaves_behind hsum).2.2.1 (by decide) ⟨3⟩ (by decide), ?_⟩
  obtain ⟨-, -, -, hdecode, -⟩ := fault_leaves_behind hbyte
  exact (hdecode _ rfl).2.2 (by decide) ⟨3⟩ (by decide)

end BoundedLoop
