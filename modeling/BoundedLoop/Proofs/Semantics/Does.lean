import BoundedLoop.Proofs.Semantics.Effects

/-!
# What an instruction does that succeeds

`Instruction.Does` has one case for each way in which an instruction can succeed, and says all that it does
then. What is to be proved of every step of a machine is proved by these cases
(`Machine.exists_does_of_execute`).
-/

namespace BoundedLoop

/-- What an instruction does to a machine that stands behind it already, if it does not fault. -/
inductive Instruction.Does : Instruction → Machine → Machine → Prop where
  | add {k : Nat} {stack : List Value} {slots : Array (Option Value)} {l r n : Int64}
      (h : n.toInt = l.toInt + r.toInt) :
      Does .add ⟨k, .number r :: .number l :: stack, slots⟩ ⟨k, .number n :: stack, slots⟩
  | multiply {k : Nat} {stack : List Value} {slots : Array (Option Value)} {l r n : Int64}
      (h : n.toInt = l.toInt * r.toInt) :
      Does .multiply ⟨k, .number r :: .number l :: stack, slots⟩ ⟨k, .number n :: stack, slots⟩
  | greater {k : Nat} {stack : List Value} {slots : Array (Option Value)} (l r : Int64) :
      Does .greater ⟨k, .number r :: .number l :: stack, slots⟩ ⟨k, .boolean (r < l) :: stack, slots⟩
  | less {k : Nat} {stack : List Value} {slots : Array (Option Value)} (l r : Int64) :
      Does .less ⟨k, .number r :: .number l :: stack, slots⟩ ⟨k, .boolean (l < r) :: stack, slots⟩
  | equal {k : Nat} {stack : List Value} {slots : Array (Option Value)} {l r : Value} (h : l.ty = r.ty) :
      Does .equal ⟨k, r :: l :: stack, slots⟩ ⟨k, .boolean (l = r) :: stack, slots⟩
  | not {k : Nat} {stack : List Value} {slots : Array (Option Value)} (b : Bool) :
      Does .not ⟨k, .boolean b :: stack, slots⟩ ⟨k, .boolean (!b) :: stack, slots⟩
  | push {k : Nat} {stack : List Value} {slots : Array (Option Value)} (v : Value) :
      Does (.push v) ⟨k, stack, slots⟩ ⟨k, v :: stack, slots⟩
  | pop {k : Nat} {stack : List Value} {slots : Array (Option Value)} (v : Value) :
      Does .pop ⟨k, v :: stack, slots⟩ ⟨k, stack, slots⟩
  | jump {k t : Nat} {stack : List Value} {slots : Array (Option Value)} {d : Int16}
      (h : (t : Int) = k + d.toInt) : Does (.jump d) ⟨k, stack, slots⟩ ⟨t, stack, slots⟩
  | stay {k : Nat} {stack : List Value} {slots : Array (Option Value)} {d : Int16} :
      Does (.jumpIfFalse d) ⟨k, .boolean true :: stack, slots⟩ ⟨k, .boolean true :: stack, slots⟩
  | leave {k t : Nat} {stack : List Value} {slots : Array (Option Value)} {d : Int16}
      (h : (t : Int) = k + d.toInt) :
      Does (.jumpIfFalse d) ⟨k, .boolean false :: stack, slots⟩ ⟨t, .boolean false :: stack, slots⟩
  | store {k : Nat} {stack : List Value} {slots : Array (Option Value)} {slot : UInt8} (v : Value)
      (h : slot.toNat < slots.size) : Does (.store slot) ⟨k, v :: stack, slots⟩
        ⟨k, v :: stack, slots.setIfInBounds slot.toNat (some v)⟩
  | load {k : Nat} {stack : List Value} {slots : Array (Option Value)} {slot : UInt8} {v : Value}
      (h : slots[slot.toNat]? = some (some v)) :
      Does (.load slot) ⟨k, stack, slots⟩ ⟨k, v :: stack, slots⟩

/-- The instruction at `o` can be followed by that at `t`. -/
def Instruction.LeadsTo (o t : Nat) : Instruction → Prop
  | jump d => (t : Int) = (o + 3 : Nat) + d.toInt
  | jumpIfFalse d => t = o + 3 ∨ (t : Int) = (o + 3 : Nat) + d.toInt
  | i => t = o + i.size

namespace Machine

variable {chunk : Chunk} {i : Instruction} {m m' : Machine} {size k : Nat} {stack : List Value}
  {slots : Array (Option Value)}

section Apply

open ActionM

theorem does_of_onNumbers {op : Opcode} {f : Int64 × Int64 → ActionM Unit}
    (h : (popNumbers op >>= f) ⟨k, stack, slots⟩ = .ok () m') :
    ∃ l r rest, stack = .number r :: .number l :: rest ∧ f (l, r) ⟨k, rest, slots⟩ = .ok () m' := by
  replace h : EStateM.bind (popNumbers op) f ⟨k, stack, slots⟩ = .ok () m' := h
  unfold EStateM.bind at h
  rcases popNumbers_cases op k stack slots with
    ⟨l, r, rest, rfl, hpop⟩ | ⟨cause, taken, rest, rfl, -, hpop⟩
  · rw [hpop] at h
    exact ⟨l, r, rest, rfl, h⟩
  · rw [hpop] at h
    cases h

theorem does_of_arithmetic {op : Opcode} {f : Int → Int → Int}
    (h : arithmetic op f ⟨k, stack, slots⟩ = .ok () m') :
    ∃ l r n rest, stack = .number r :: .number l :: rest ∧ n.toInt = f l.toInt r.toInt ∧
      m' = ⟨k, .number n :: rest, slots⟩ := by
  obtain ⟨l, r, rest, rfl, -⟩ := does_of_onNumbers h
  rw [apply_arithmetic] at h
  split at h
  · rename_i n hexact
    cases h
    exact ⟨l, r, n, rest, rfl, exact64?_eq_some_iff.1 hexact, rfl⟩
  · cases h

theorem does_of_jump {d : Int16} (h : jump size d ⟨k, stack, slots⟩ = .ok () m') :
    ∃ t : Nat, (t : Int) = k + d.toInt ∧ m' = ⟨t, stack, slots⟩ := by
  rw [jump_eq] at h
  split at h
  · rename_i htarget
    cases h
    exact ⟨_, Int.toNat_of_nonneg htarget.1, rfl⟩
  · cases h

theorem does_of_equal (h : ActionM.apply size .equal ⟨k, stack, slots⟩ = .ok () m') :
    ∃ l r rest, stack = r :: l :: rest ∧ l.ty = r.ty ∧ m' = ⟨k, .boolean (l = r) :: rest, slots⟩ := by
  match stack with
  | [] | [_] => cases h
  | r :: l :: rest =>
    have heq : ActionM.apply size .equal ⟨k, r :: l :: rest, slots⟩ =
        (if l.ty = r.ty then push (.boolean (l = r))
          else throw (.operandMismatch .equal l.ty r.ty) : ActionM Unit) ⟨k, rest, slots⟩ := rfl
    rw [heq] at h
    split at h
    · rename_i hty
      cases h
      exact ⟨l, r, rest, rfl, hty, rfl⟩
    · cases h

/-- All ways in which an instruction succeeds. -/
theorem does_of_apply (h : ActionM.apply size i m = .ok () m') : i.Does m m' := by
  obtain ⟨k, stack, slots⟩ := m
  cases i with
  | add =>
    obtain ⟨l, r, n, rest, rfl, hn, rfl⟩ := does_of_arithmetic h
    exact .add hn
  | multiply =>
    obtain ⟨l, r, n, rest, rfl, hn, rfl⟩ := does_of_arithmetic h
    exact .multiply hn
  | greater =>
    obtain ⟨l, r, rest, rfl, h⟩ := does_of_onNumbers h
    cases h
    exact .greater l r
  | less =>
    obtain ⟨l, r, rest, rfl, h⟩ := does_of_onNumbers h
    cases h
    exact .less l r
  | equal =>
    obtain ⟨l, r, rest, rfl, hty, rfl⟩ := does_of_equal h
    exact .equal hty
  | not =>
    match stack with
    | [] | .number _ :: _ => cases h
    | .boolean b :: rest =>
      cases h
      exact .not b
  | push v =>
    cases h
    exact .push v
  | pop =>
    match stack with
    | [] => cases h
    | v :: rest =>
      cases h
      exact .pop v
  | jump d =>
    obtain ⟨t, ht, rfl⟩ := does_of_jump h
    exact .jump ht
  | jumpIfFalse d =>
    match stack with
    | [] | .number _ :: _ => cases h
    | .boolean true :: rest =>
      cases h
      exact .stay
    | .boolean false :: rest =>
      replace h : ActionM.jump size d ⟨k, .boolean false :: rest, slots⟩ = .ok () m' := h
      obtain ⟨t, ht, rfl⟩ := does_of_jump h
      exact .leave ht
  | store slot =>
    match stack with
    | [] => cases h
    | v :: rest =>
      replace h : ActionM.store slot v ⟨k, v :: rest, slots⟩ = .ok () m' := h
      rw [store_eq] at h
      split at h
      · rename_i hslot
        cases h
        exact .store v hslot
      · cases h
  | load slot =>
    rw [apply_load] at h
    split at h
    · cases h
    · cases h
    · rename_i v hv
      cases h
      exact .load hv

end Apply

/-- A step that succeeds is what the instruction does that the machine stands at. -/
theorem exists_does_of_execute (h : m.execute chunk = .ok () m') :
    ∃ i, chunk.decode m.ip = .ok i ∧ i.Does ⟨m.ip + i.size, m.stack, m.slots⟩ m' := by
  have hexecutes := executes chunk m
  rw [h] at hexecutes
  cases hexecutes with
  | succeeds hdecode happly => exact ⟨_, hdecode, does_of_apply happly⟩

end Machine

namespace Instruction.Does

variable {i : Instruction} {m m' : Machine} {o : Nat} {stack : List Value} {slots : Array (Option Value)}

theorem leadsTo (h : i.Does ⟨o + i.size, stack, slots⟩ m') : i.LeadsTo o m'.ip := by
  cases h with
  | jump h => exact h
  | stay => exact .inl rfl
  | leave h => exact .inr h
  | _ => rfl

/-- Only the slot that is stored to changes. -/
theorem getElem?_slots (h : i.Does m m') {j : Nat} (hj : ∀ slot, i = .store slot → slot.toNat ≠ j) :
    m'.slots[j]? = m.slots[j]? := by
  cases h with
  | store v h => exact Array.getElem?_setIfInBounds_ne (hj _ rfl)
  | _ => rfl

end Instruction.Does

end BoundedLoop
