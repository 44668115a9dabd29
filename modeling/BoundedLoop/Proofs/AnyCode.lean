import BoundedLoop.Proofs.Portions
import BoundedLoop.Proofs.Semantics.Effects

/-!
# Machines are safe on any code

Whatever the bytes of a chunk are, and however a machine is called on it, with any fuel and also
behind faults, the machine stays inside the code and keeps its slots (`Machine.Within`). Every
instruction that it executes does little, and what it asks for in vain, a byte or a slot, is
answered by a fault (`Machine.SafeAt`). Every fault names a place of the code, and the line there
(`Fault.Placed`). `safe_on_any_code` puts all this together.

One instruction keeps a machine within the code because it is decoded only if all its bytes are
there. So any number of them do, and any sequence of calls.
-/

namespace BoundedLoop

/-- The fault is at an offset of the code or at its end, and has a line just if there is a byte: the
line of that byte. -/
structure Fault.Placed (chunk : Chunk) (f : Fault) : Prop where
  offset : f.offset ≤ chunk.size
  line : ∀ line, f.line = some line ↔
    ∃ h : f.offset < chunk.cells.size, (chunk.cells[f.offset]).line = line

theorem Fault.placed_of {chunk : Chunk} {offset : Nat} (h : offset ≤ chunk.size) (cause : FaultCause) :
    (Fault.of chunk offset cause).Placed chunk := by
  refine ⟨h, ?_⟩
  intro line
  show (chunk.cells[offset]?).map Cell.line = some line ↔ _
  rw [Option.map_eq_some_iff]
  constructor
  · rintro ⟨cell, hcell, rfl⟩
    obtain ⟨hlt, rfl⟩ := Array.getElem?_eq_some_iff.1 hcell
    exact ⟨hlt, rfl⟩
  · rintro ⟨hlt, rfl⟩
    exact ⟨_, Array.getElem?_eq_getElem hlt, rfl⟩

/-- The slot that an instruction reads or writes. -/
def Instruction.slot? : Instruction → Option UInt8
  | .store slot | .load slot => some slot
  | _ => none

namespace Machine

variable {chunk : Chunk} {m m' : Machine} {n left : Nat} {stop : Stop}

/-- The machine stands inside the code or at its end, and has the slots that the chunk asks for. -/
structure Within (chunk : Chunk) (m : Machine) : Prop where
  ip : m.ip ≤ chunk.size
  slots : m.slots.size = chunk.slotCount

/-! ### One instruction -/

theorem Moves.size_slots {size : Nat} (h : m.Moves size m') : m'.slots.size = m.slots.size := by
  rcases h.slots with hslots | ⟨slot, v, -, hslots⟩
  · rw [hslots]
  · rw [hslots, Array.size_setIfInBounds]

/-- At most one slot is another one afterwards. -/
theorem Moves.exists_slot {size : Nat} (h : m.Moves size m') :
    ∃ slot : Nat, ∀ other, other ≠ slot → m'.slots[other]? = m.slots[other]? := by
  rcases h.slots with hslots | ⟨slot, v, -, hslots⟩
  · exact ⟨0, fun other _ => by rw [hslots]⟩
  · refine ⟨slot, ?_⟩
    intro other hne
    rw [hslots, Array.getElem?_setIfInBounds_ne hne.symm]

theorem Within.execute_ok (hm : m.Within chunk) (h : m.execute chunk = .ok () m') :
    m'.Within chunk := by
  have hexecutes := m.executes chunk
  rw [h] at hexecutes
  cases hexecutes with
  | succeeds hdecode _ hleaves =>
    refine ⟨?_, hleaves.size_slots.trans hm.slots⟩
    -- behind an instruction whose bytes are all there, or where a jump has led
    rcases hleaves.ip with hip | hip
    · rw [hip]
      exact Chunk.add_size_le_of_decode hdecode
    · exact hip

theorem Within.execute_error {f : Fault} (hm : m.Within chunk) (h : m.execute chunk = .error f m') :
    m'.Within chunk := by
  have hexecutes := m.executes chunk
  rw [h] at hexecutes
  cases hexecutes with
  | undecoded _ => exact hm
  | faults hdecode _ hleaves =>
    refine ⟨?_, by rw [hleaves.slots, hm.slots]⟩
    rw [hleaves.ip]
    exact Chunk.add_size_le_of_decode hdecode

theorem placed_of_execute {f : Fault} (hm : m.Within chunk) (h : m.execute chunk = .error f m') :
    f.offset = m.ip ∧ f.Placed chunk := by
  have hexecutes := m.executes chunk
  rw [h] at hexecutes
  cases hexecutes with
  | undecoded _ => exact ⟨rfl, Fault.placed_of hm.ip _⟩
  | faults => exact ⟨rfl, Fault.placed_of hm.ip _⟩

/-- What executing can do to the stack and to the slots, whether it faults or not. -/
structure SmallChange (m m' : Machine) : Prop where
  grown : m'.stack.length ≤ m.stack.length + 2
  shrunk : m.stack.length ≤ m'.stack.length + 2
  slot : ∃ slot : Nat, ∀ other, other ≠ slot → m'.slots[other]? = m.slots[other]?

theorem smallChange_of_ok (h : m.execute chunk = .ok () m') : m.SmallChange m' := by
  have hexecutes := m.executes chunk
  rw [h] at hexecutes
  cases hexecutes with
  | succeeds _ _ hleaves =>
    obtain ⟨taken, put, rest, hbefore, hafter, htaken, hput⟩ := hleaves.stack
    have hbefore : m.stack = taken ++ rest := hbefore
    refine ⟨?_, ?_, hleaves.exists_slot⟩ <;>
      rw [hbefore, hafter, List.length_append, List.length_append] <;> omega

theorem smallChange_of_error {f : Fault} (h : m.execute chunk = .error f m') : m.SmallChange m' := by
  have hexecutes := m.executes chunk
  rw [h] at hexecutes
  cases hexecutes with
  | undecoded _ => exact ⟨Nat.le_add_right _ 2, Nat.le_add_right _ 2, 0, fun _ _ => rfl⟩
  | faults _ _ hleaves =>
    obtain ⟨taken, hbefore, htaken⟩ := hleaves.stack
    have hbefore : m.stack = taken ++ m'.stack := hbefore
    refine ⟨?_, ?_, 0, fun other _ => by rw [hleaves.slots]⟩ <;>
      rw [hbefore, List.length_append] <;> omega

/-- A slot is there, or the instruction that asks for it faults. A store looks at the stack first. -/
theorem slot_lt_or_faults {i : Instruction} {slot : UInt8} (hdecode : chunk.decode m.ip = .ok i)
    (hslot : i.slot? = some slot) : slot.toNat < m.slots.size ∨ ∃ f m', m.execute chunk = .error f m' ∧
      (f.cause = .invalidSlot slot m.slots.size ∨
        i = .store slot ∧ m.stack = [] ∧ f.cause = .stackUnderflow) := by
  by_cases hlt : slot.toNat < m.slots.size
  · exact .inl hlt
  · refine .inr ?_
    obtain ⟨k, stack, slots⟩ := m
    unfold execute
    rw [hdecode]
    cases i with
    | store target =>
      cases hslot
      match stack with
      | [] => exact ⟨_, _, rfl, .inr ⟨rfl, rfl, rfl⟩⟩
      | v :: rest =>
        have happly : ActionM.apply chunk.size (.store slot) ⟨k + 2, v :: rest, slots⟩ =
            .error (.invalidSlot slot slots.size) ⟨k + 2, v :: rest, slots⟩ := by
          show (if slot.toNat < slots.size then
              modify fun m => { m with slots := m.slots.setIfInBounds slot.toNat (some v) }
            else throw (.invalidSlot slot slots.size) : ActionM Unit) ⟨k + 2, v :: rest, slots⟩ = _
          rw [if_neg hlt]
          rfl
        exact ⟨.of chunk k (.invalidSlot slot slots.size), ⟨k + 2, v :: rest, slots⟩,
          by simp only [Instruction.size, Instruction.opcode, Opcode.operandSize, happly], .inl rfl⟩
    | load target =>
      cases hslot
      have happly : ActionM.apply chunk.size (.load slot) ⟨k + 2, stack, slots⟩ =
          .error (.invalidSlot slot slots.size) ⟨k + 2, stack, slots⟩ := by
        rw [apply_load, Array.getElem?_eq_none (Nat.le_of_not_lt hlt)]
      exact ⟨.of chunk k (.invalidSlot slot slots.size), ⟨k + 2, stack, slots⟩,
        by simp only [Instruction.size, Instruction.opcode, Opcode.operandSize, happly], .inl rfl⟩
    | _ => cases hslot

/-- Executing where the machine stands is safe: bytes and slots that are used are there, what is not
there is answered by a fault, and little changes. -/
structure SafeAt (chunk : Chunk) (m : Machine) : Prop where
  /-- the instruction has all its bytes -/
  bytes : ∀ i, chunk.decode m.ip = .ok i → m.ip + i.size ≤ chunk.size
  undecoded : ∀ e, chunk.decode m.ip = .error e →
    m.execute chunk = .error (.of chunk m.ip (.decode e)) m
  slot : ∀ i slot, chunk.decode m.ip = .ok i → i.slot? = some slot → slot.toNat < chunk.slotCount ∨
    ∃ f m', m.execute chunk = .error f m' ∧ (f.cause = .invalidSlot slot chunk.slotCount ∨
      i = .store slot ∧ m.stack = [] ∧ f.cause = .stackUnderflow)
  succeeds : ∀ m', m.execute chunk = .ok () m' → m.SmallChange m'
  faults : ∀ f m', m.execute chunk = .error f m' → m.SmallChange m' ∧ f.offset = m.ip ∧ f.Placed chunk

theorem Within.safeAt (hm : m.Within chunk) : m.SafeAt chunk where
  bytes _ hdecode := Chunk.add_size_le_of_decode hdecode
  undecoded e hdecode := by
    unfold execute
    rw [hdecode]
  slot i slot hdecode hslot := by
    have hlt := slot_lt_or_faults hdecode hslot
    rw [hm.slots] at hlt
    exact hlt
  succeeds _ h := smallChange_of_ok h
  faults _ _ h := ⟨smallChange_of_error h, placed_of_execute hm h⟩

/-! ### Any number of instructions -/

theorem Within.steps (hm : m.Within chunk) (h : Steps chunk m m') : m'.Within chunk := by
  induction h with
  | refl => exact hm
  | tail _ hstep ih => exact ih.execute_ok hstep

theorem Within.placed_of_result {f : Fault} (h : m.result chunk = .fault f) : f.Placed chunk := by
  unfold result at h
  split at h
  · cases h
  · cases h
    exact Fault.placed_of (Nat.le_refl _) _

/-- A run ends within the code, and a fault that ends it is one of the code. -/
theorem Within.advance (hm : m.Within chunk) (h : advance chunk n m = (stop, left, m')) :
    m'.Within chunk ∧ ∀ f, stop = .fault f → f.Placed chunk := by
  induction n generalizing m with
  | zero =>
    rw [Machine.advance] at h
    split at h
    · cases h
      exact ⟨hm, fun _ => placed_of_result⟩
    · cases h
      refine ⟨hm, ?_⟩
      intro f hf
      cases hf
  | succ n ih =>
    rw [Machine.advance] at h
    split at h
    · cases h
      exact ⟨hm, fun _ => placed_of_result⟩
    · split at h
      · rename_i hstep
        exact ih (hm.execute_ok hstep) h
      · rename_i hfault
        cases h
        refine ⟨hm.execute_error hfault, ?_⟩
        rintro f hf
        cases hf
        exact (placed_of_execute hm hfault).2

theorem Within.step {fuel fuel' : Fuel} (hm : m.Within chunk)
    (h : m.step chunk fuel = (stop, fuel', m')) :
    m'.Within chunk ∧ ∀ f, stop = .fault f → f.Placed chunk := by
  obtain ⟨left, hadvance⟩ := advance_of_step h
  exact hm.advance hadvance

theorem Within.run (hm : m.Within chunk) (h : m.run chunk = some (stop, m')) :
    m'.Within chunk ∧ ∀ f, stop = .fault f → f.Placed chunk := by
  obtain ⟨n, left, hadvance, -⟩ := exists_advance_of_run h
  exact hm.advance hadvance

/-! ### Any sequence of calls -/

/-- The machines that come from the start of a chunk by calls, whether they end in faults or not. -/
inductive Called (chunk : Chunk) : Machine → Prop where
  | start : Called chunk (.ofChunk chunk)
  | step {m m' : Machine} {fuel fuel' : Fuel} {stop : Stop} (hm : Called chunk m)
      (h : m.step chunk fuel = (stop, fuel', m')) : Called chunk m'
  | run {m m' : Machine} {stop : Stop} (hm : Called chunk m) (h : m.run chunk = some (stop, m')) :
      Called chunk m'

theorem Called.within (h : Called chunk m) : m.Within chunk := by
  induction h with
  | start => exact ⟨Nat.zero_le _, Array.size_replicate⟩
  | step _ h ih => exact (ih.step h).1
  | run _ h ih => exact (ih.run h).1

theorem Within.isFinished_iff (hm : m.Within chunk) :
    m.isFinished chunk = true ↔ m.ip = chunk.size := by
  have hle := hm.ip
  unfold isFinished
  rw [decide_eq_true_iff]
  omega

theorem Within.slot_of_output {v : Value} (hm : m.Within chunk) (h : m.result chunk = .output v) :
    Chunk.outputSlot.toNat < chunk.slotCount := by
  unfold result at h
  split at h
  · rename_i hslot
    rw [← hm.slots]
    exact (Array.getElem?_eq_some_iff.1 hslot).1
  · cases h

end Machine

open Machine

/-- Any code is executed safely, by any sequence of calls. The machine never leaves the code, so
that it has finished just when it is at its end, and it keeps its slots. Every instruction that it
comes to is executed safely. Every fault of a further call is placed in the code, and a result is
read out of a slot that is there. -/
theorem safe_on_any_code {chunk : Chunk} {m : Machine} (hm : Called chunk m) :
    m.ip ≤ chunk.size ∧ (m.isFinished chunk = true ↔ m.ip = chunk.size) ∧
    m.slots.size = chunk.slotCount ∧
    (∀ m₁, Steps chunk m m₁ → m₁.Within chunk ∧ m₁.SafeAt chunk ∧
      ∀ v, m₁.result chunk = .output v → Chunk.outputSlot.toNat < chunk.slotCount) ∧
    (∀ fuel f fuel' m', m.step chunk fuel = (.fault f, fuel', m') → f.Placed chunk) ∧
    ∀ f m', m.run chunk = some (.fault f, m') → f.Placed chunk := by
  have hwithin := hm.within
  refine ⟨hwithin.ip, hwithin.isFinished_iff, hwithin.slots, ?_, ?_, ?_⟩
  · intro m₁ hsteps
    have hwithin₁ := hwithin.steps hsteps
    exact ⟨hwithin₁, hwithin₁.safeAt, fun _ => hwithin₁.slot_of_output⟩
  · intro fuel f fuel' m' h
    exact (hwithin.step h).2 f rfl
  · intro f m' h
    exact (hwithin.run h).2 f rfl

/-- Code that asks for a slot that is not there, jumps away, takes operands from an empty stack, and
ends with a byte that is no instruction and one that lacks its operand. -/
def brokenCode : Chunk where
  cells := #[⟨11, 1⟩, ⟨7, 1⟩, ⟨8, 2⟩, ⟨127, 2⟩, ⟨255, 2⟩, ⟨0, 3⟩, ⟨255, 4⟩, ⟨6, 5⟩]
  slotCount := 1

/-- The machine after three faults, in front of the byte that is no instruction. -/
def brokenMachine : Machine := ⟨6, [], #[none]⟩

theorem safe_on_any_code_brokenCode : Called brokenCode brokenMachine ∧ brokenMachine.slots.size = 1 ∧
    brokenMachine.step brokenCode ⟨9⟩ =
      (.fault ⟨.decode (.invalidOpcode 255), 6, some 4⟩, ⟨9⟩, brokenMachine) ∧
    Fault.Placed brokenCode ⟨.decode (.invalidOpcode 255), 6, some 4⟩ := by
  have hslot : (Machine.ofChunk brokenCode).step brokenCode ⟨9⟩ =
      (.fault ⟨.invalidSlot 7 1, 0, some 1⟩, ⟨9⟩, ⟨2, [], #[none]⟩) := by decide +kernel
  have hjump : Machine.step brokenCode ⟨1⟩ ⟨2, [], #[none]⟩ =
      (.fault ⟨.invalidJump 32772, 2, some 2⟩, ⟨1⟩, ⟨5, [], #[none]⟩) := by decide +kernel
  have hadd : Machine.step brokenCode ⟨2⟩ ⟨5, [], #[none]⟩ =
      (.fault ⟨.stackUnderflow, 5, some 3⟩, ⟨2⟩, brokenMachine) := by decide +kernel
  have hcalled : Called brokenCode brokenMachine := .step (.step (.step .start hslot) hjump) hadd
  have hstep : brokenMachine.step brokenCode ⟨9⟩ =
      (.fault ⟨.decode (.invalidOpcode 255), 6, some 4⟩, ⟨9⟩, brokenMachine) := by decide +kernel
  obtain ⟨-, -, hslots, -, hplaced, -⟩ := safe_on_any_code hcalled
  exact ⟨hcalled, hslots, hstep, hplaced _ _ _ _ hstep⟩

end BoundedLoop
