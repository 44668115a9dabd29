import BoundedLoop.Proofs.Semantics.Execution

/-!
# What one instruction can do

Whatever bytes a chunk has, an instruction does little. If it succeeds, it takes at most two
operands from the stack and puts at most one there, writes at most one slot, and goes on behind
itself or jumps within the code (`Machine.Moves`). If it faults, operands that it took stay taken,
and nothing else happens but that the machine stands behind it (`Machine.Drops`).

`Machine.leaves_apply` says so of every instruction, and `Machine.executes` of every byte that the
machine can stand at. An instruction that is decoded lies wholly inside the code
(`Chunk.add_size_le_of_decode`).
-/

namespace BoundedLoop

/-! ### Instructions lie inside the code -/

namespace Chunk

variable {c : Chunk} {offset n : Nat}

theorem lt_size_of_byteAt? {byte : UInt8} (h : c.byteAt? offset = some byte) : offset < c.size := by
  unfold byteAt? at h
  obtain ⟨cell, hcell, -⟩ := Option.map_eq_some_iff.1 h
  exact (Array.getElem?_eq_some_iff.1 hcell).1

theorem add_le_size_of_bytesAt? {bytes : List UInt8} (h : c.bytesAt? offset (n + 1) = some bytes) :
    offset + (n + 1) ≤ c.size := by
  induction n generalizing offset bytes with
  | zero =>
    rw [bytesAt?] at h
    obtain ⟨byte, hbyte, -⟩ := Option.bind_eq_some_iff.1 h
    exact lt_size_of_byteAt? hbyte
  | succ n ih =>
    rw [bytesAt?] at h
    obtain ⟨byte, -, h⟩ := Option.bind_eq_some_iff.1 h
    obtain ⟨rest, hrest, -⟩ := Option.bind_eq_some_iff.1 h
    have hle := ih hrest
    omega

theorem add_le_size_of_operandBytes {op : Opcode} {bytes : List UInt8}
    (h : c.operandBytes op offset (n + 1) = .ok bytes) : offset + (n + 1) ≤ c.size := by
  unfold operandBytes at h
  split at h
  · rename_i hbytes
    exact add_le_size_of_bytesAt? hbytes
  · cases h

theorem lt_size_of_decodeSlot {op : Opcode} {slot : UInt8} (h : c.decodeSlot op offset = .ok slot) :
    offset < c.size := by
  unfold decodeSlot at h
  split at h
  · rename_i hbyte
    exact lt_size_of_byteAt? hbyte
  · cases h

theorem exists_of_map_ok {α β : Type} {r : Except DecodeError α} {f : α → β} {b : β}
    (h : r.map f = .ok b) : ∃ a, r = .ok a ∧ f a = b := by
  cases r with
  | ok a => exact ⟨a, rfl, Except.ok.inj h⟩
  | error e => cases h

theorem exists_of_bind_ok {α β : Type} {r : Except DecodeError α} {f : α → Except DecodeError β}
    {b : β} (h : (r >>= f) = .ok b) : ∃ a, r = .ok a ∧ f a = .ok b := by
  cases r with
  | ok a => exact ⟨a, rfl, h⟩
  | error e => cases h

/-- The instruction of an opcode whose operands begin at `offset`. -/
def decodeOperands (c : Chunk) (offset : Nat) : Opcode → Except DecodeError Instruction
  | .add => .ok .add
  | .multiply => .ok .multiply
  | .equal => .ok .equal
  | .greater => .ok .greater
  | .less => .ok .less
  | .not => .ok .not
  | .pop => .ok .pop
  | .push => (c.decodeValue offset).map .push
  | .jump => (c.decodeDistance .jump offset).map .jump
  | .jumpIfFalse => (c.decodeDistance .jumpIfFalse offset).map .jumpIfFalse
  | .store => (c.decodeSlot .store offset).map .store
  | .load => (c.decodeSlot .load offset).map .load

theorem decode_of_byteAt? {op : Opcode} (h : c.byteAt? offset = some op.toByte) :
    c.decode offset = c.decodeOperands (offset + 1) op := by
  unfold decode
  rw [h]
  simp only [Opcode.ofByte?_toByte]
  cases op <;> rfl

/-- An instruction begins with an opcode. -/
theorem exists_opcode_of_decode {i : Instruction} (h : c.decode offset = .ok i) :
    ∃ op : Opcode, c.byteAt? offset = some op.toByte ∧ c.decodeOperands (offset + 1) op = .ok i := by
  cases hbyte : c.byteAt? offset with
  | none =>
    rw [decode, hbyte] at h
    cases h
  | some byte =>
    cases hop : Opcode.ofByte? byte with
    | none =>
      simp only [decode, hbyte, hop] at h
      cases h
    | some op =>
      obtain rfl := Opcode.toByte_of_ofByte? hop
      exact ⟨op, rfl, (decode_of_byteAt? hbyte).symm.trans h⟩

/-- What is decoded lies wholly inside the code. -/
theorem add_size_le_of_decode {i : Instruction} (h : c.decode offset = .ok i) :
    offset + i.size ≤ c.size := by
  obtain ⟨op, hbyte, h⟩ := exists_opcode_of_decode h
  have hlt := lt_size_of_byteAt? hbyte
  cases op with
  | push =>
    obtain ⟨v, hv, rfl⟩ := exists_of_map_ok h
    obtain ⟨tag, -, hv⟩ := exists_of_bind_ok hv
    obtain ⟨bytes, hbytes, -⟩ := exists_of_bind_ok hv
    have hle := add_le_size_of_operandBytes hbytes
    simp only [Instruction.size, Instruction.opcode, Opcode.operandSize]
    omega
  | jump | jumpIfFalse =>
    obtain ⟨d, hd, rfl⟩ := exists_of_map_ok h
    obtain ⟨bytes, hbytes, -⟩ := exists_of_bind_ok hd
    have hle := add_le_size_of_operandBytes hbytes
    simp only [Instruction.size, Instruction.opcode, Opcode.operandSize]
    omega
  | store | load =>
    obtain ⟨slot, hslot, rfl⟩ := exists_of_map_ok h
    have hlt := lt_size_of_decodeSlot hslot
    simp only [Instruction.size, Instruction.opcode, Opcode.operandSize]
    omega
  | _ =>
    cases h
    exact hlt

end Chunk

namespace Machine

/-! ### Effects -/

/-- All that an instruction can do which succeeds: `m` stands behind it already, and the code has
`size` bytes. -/
structure Moves (size : Nat) (m m' : Machine) : Prop where
  ip : m'.ip = m.ip ∨ m'.ip ≤ size
  stack : ∃ taken put rest, m.stack = taken ++ rest ∧ m'.stack = put ++ rest ∧
    taken.length ≤ 2 ∧ put.length ≤ 1
  slots : m'.slots = m.slots ∨
    ∃ slot v, slot < m.slots.size ∧ m'.slots = m.slots.setIfInBounds slot (some v)

/-- All that an instruction can do which faults. -/
structure Drops (m m' : Machine) : Prop where
  ip : m'.ip = m.ip
  stack : ∃ taken, m.stack = taken ++ m'.stack ∧ taken.length ≤ 2
  slots : m'.slots = m.slots

/-- What an instruction leaves behind, one way or the other. -/
def Leaves (size : Nat) (m : Machine) : EStateM.Result FaultCause Machine Unit → Prop
  | .ok _ m' => m.Moves size m'
  | .error _ m' => m.Drops m'

variable {size k : Nat} {stack : List Value} {slots : Array (Option Value)}

theorem Moves.of_stack (taken put rest : List Value) (htaken : taken.length ≤ 2)
    (hput : put.length ≤ 1) : Moves size ⟨k, taken ++ rest, slots⟩ ⟨k, put ++ rest, slots⟩ :=
  ⟨.inl rfl, ⟨taken, put, rest, rfl, rfl, htaken, hput⟩, .inl rfl⟩

theorem Drops.of_stack (taken rest : List Value) (htaken : taken.length ≤ 2) :
    Drops ⟨k, taken ++ rest, slots⟩ ⟨k, rest, slots⟩ :=
  ⟨rfl, ⟨taken, rfl, htaken⟩, rfl⟩

theorem Drops.refl (m : Machine) : m.Drops m := ⟨rfl, ⟨[], rfl, Nat.zero_le 2⟩, rfl⟩

namespace ActionM

/-- Two numbers are on top, or operands are taken in vain. -/
theorem popNumbers_cases (op : Opcode) (k : Nat) (stack : List Value) (slots : Array (Option Value)) :
    (∃ l r rest, stack = .number r :: .number l :: rest ∧
      popNumbers op ⟨k, stack, slots⟩ = .ok (l, r) ⟨k, rest, slots⟩) ∨
    ∃ cause taken rest, stack = taken ++ rest ∧ taken.length ≤ 2 ∧
      popNumbers op ⟨k, stack, slots⟩ = .error cause ⟨k, rest, slots⟩ := by
  match stack with
  | [] => exact .inr ⟨_, [], [], rfl, Nat.zero_le 2, rfl⟩
  | [v] => exact .inr ⟨_, [v], [], rfl, (Nat.le_succ 1), rfl⟩
  | .number r :: .number l :: rest => exact .inl ⟨l, r, rest, rfl, rfl⟩
  | .boolean b :: v :: rest => cases v <;> exact .inr ⟨_, [_, _], rest, rfl, Nat.le_refl 2, rfl⟩
  | .number r :: .boolean b :: rest => exact .inr ⟨_, [_, _], rest, rfl, Nat.le_refl 2, rfl⟩

/-- An operator on two numbers that puts one value, or faults. -/
theorem leaves_onNumbers (op : Opcode) (f : Int64 × Int64 → ActionM Unit)
    (hf : ∀ p m, (∃ v, f p m = .ok () { m with stack := v :: m.stack }) ∨
      ∃ cause, f p m = .error cause m) :
    Leaves size ⟨k, stack, slots⟩ ((popNumbers op >>= f) ⟨k, stack, slots⟩) := by
  show Leaves size _ (EStateM.bind (popNumbers op) f ⟨k, stack, slots⟩)
  unfold EStateM.bind
  rcases popNumbers_cases op k stack slots with
    ⟨l, r, rest, rfl, hpop⟩ | ⟨cause, taken, rest, rfl, hlength, hpop⟩
  · rw [hpop]
    show Leaves size _ (f (l, r) ⟨k, rest, slots⟩)
    rcases hf (l, r) ⟨k, rest, slots⟩ with ⟨v, hv⟩ | ⟨cause, hcause⟩
    · rw [hv]
      exact Moves.of_stack [_, _] [v] _ (Nat.le_refl 2) (Nat.le_refl 1)
    · rw [hcause]
      exact Drops.of_stack [_, _] _ (Nat.le_refl 2)
  · rw [hpop]
    exact Drops.of_stack taken rest hlength

theorem leaves_arithmetic (op : Opcode) (f : Int → Int → Int) :
    Leaves size ⟨k, stack, slots⟩ (arithmetic op f ⟨k, stack, slots⟩) := by
  refine leaves_onNumbers op _ ?_
  rintro ⟨l, r⟩ m
  cases hexact : exact64? (f l.toInt r.toInt) with
  | some n =>
    simp only [hexact]
    exact .inl ⟨.number n, rfl⟩
  | none =>
    simp only [hexact]
    exact .inr ⟨_, rfl⟩

theorem leaves_comparison (op : Opcode) (f : Int64 → Int64 → Bool) :
    Leaves size ⟨k, stack, slots⟩ (comparison op f ⟨k, stack, slots⟩) := by
  refine leaves_onNumbers op _ ?_
  rintro ⟨l, r⟩ m
  exact .inl ⟨.boolean (f l r), rfl⟩

/-- What a jump does: it leads to a place of the code or to its end, or is not made. -/
theorem jump_eq (size : Nat) (distance : Int16) (k : Nat) (stack : List Value)
    (slots : Array (Option Value)) : jump size distance ⟨k, stack, slots⟩ =
      if 0 ≤ (k : Int) + distance.toInt ∧ (k : Int) + distance.toInt ≤ size then
        .ok () ⟨((k : Int) + distance.toInt).toNat, stack, slots⟩
      else .error (.invalidJump ((k : Int) + distance.toInt)) ⟨k, stack, slots⟩ := by
  show (if 0 ≤ (k : Int) + distance.toInt ∧ (k : Int) + distance.toInt ≤ size then
      modify fun m => { m with ip := ((k : Int) + distance.toInt).toNat }
    else throw (.invalidJump ((k : Int) + distance.toInt)) : ActionM Unit) ⟨k, stack, slots⟩ = _
  split <;> rfl

theorem store_eq (slot : UInt8) (v : Value) (k : Nat) (stack : List Value)
    (slots : Array (Option Value)) : store slot v ⟨k, stack, slots⟩ =
      if slot.toNat < slots.size then
        .ok () ⟨k, stack, slots.setIfInBounds slot.toNat (some v)⟩
      else .error (.invalidSlot slot slots.size) ⟨k, stack, slots⟩ := by
  show (if slot.toNat < slots.size then
      modify fun m => { m with slots := m.slots.setIfInBounds slot.toNat (some v) }
    else throw (.invalidSlot slot slots.size) : ActionM Unit) ⟨k, stack, slots⟩ = _
  split <;> rfl

theorem load_eq (slot : UInt8) (m : Machine) : load slot m =
    (m.slots[slot.toNat]?).elim (.error (.invalidSlot slot m.slots.size) m) fun content =>
      content.elim (.error (.uninitializedSlot slot) m) fun v => .ok v m := by
  have hget : ∀ (g : Machine → ActionM Value) (m : Machine), (get >>= g) m = g m m := fun _ _ => rfl
  rw [load, hget]
  rcases m.slots[slot.toNat]? with _ | _ | v <;> rfl

/-- A jump stays within the code, or is not made. -/
theorem leaves_jump (distance : Int16) :
    Leaves size ⟨k, stack, slots⟩ (jump size distance ⟨k, stack, slots⟩) := by
  rw [jump_eq]
  split
  · rename_i htarget
    refine ⟨.inr ?_, ⟨[], [], stack, rfl, rfl, Nat.zero_le 2, Nat.zero_le 1⟩, .inl rfl⟩
    show ((k : Int) + distance.toInt).toNat ≤ size
    omega
  · exact .refl _

/-- A slot that is written is there. -/
theorem leaves_store (slot : UInt8) (v : Value) :
    Leaves size ⟨k, stack, slots⟩ (store slot v ⟨k, stack, slots⟩) := by
  rw [store_eq]
  split
  · rename_i hslot
    exact ⟨.inl rfl, ⟨[], [], stack, rfl, rfl, Nat.zero_le 2, Nat.zero_le 1⟩, .inr ⟨_, v, hslot, rfl⟩⟩
  · exact .refl _

end ActionM

open ActionM

theorem leaves_equal : Leaves size ⟨k, stack, slots⟩ (ActionM.apply size .equal ⟨k, stack, slots⟩) := by
  match stack with
  | [] => exact .refl _
  | [v] => exact Drops.of_stack [v] [] (Nat.le_succ 1)
  | r :: l :: rest =>
    show Leaves size _ ((if l.ty = r.ty then push (.boolean (l = r))
      else throw (.operandMismatch .equal l.ty r.ty) : ActionM Unit) ⟨k, rest, slots⟩)
    split
    · exact Moves.of_stack [r, l] [_] _ (Nat.le_refl 2) (Nat.le_refl 1)
    · exact Drops.of_stack [r, l] _ (Nat.le_refl 2)

theorem leaves_load (slot : UInt8) :
    Leaves size ⟨k, stack, slots⟩ (ActionM.apply size (.load slot) ⟨k, stack, slots⟩) := by
  rw [apply_load]
  rcases slots[slot.toNat]? with _ | _ | v
  · exact Drops.refl _
  · exact Drops.refl _
  · exact Moves.of_stack [] [v] _ (Nat.zero_le 2) (Nat.le_refl 1)

/-- What every instruction leaves behind, one case for each. -/
theorem leaves_apply (size : Nat) (i : Instruction) (m : Machine) :
    m.Leaves size (ActionM.apply size i m) := by
  obtain ⟨k, stack, slots⟩ := m
  cases i with
  | add => exact leaves_arithmetic .add _
  | multiply => exact leaves_arithmetic .multiply _
  | greater => exact leaves_comparison .greater fun l r => r < l
  | less => exact leaves_comparison .less fun l r => l < r
  | equal => exact leaves_equal
  | not =>
    match stack with
    | [] => exact .refl _
    | .number n :: rest => exact Drops.of_stack [_] _ (Nat.le_succ 1)
    | .boolean b :: rest => exact Moves.of_stack [_] [_] _ (Nat.le_succ 1) (Nat.le_refl 1)
  | push v => exact Moves.of_stack [] [v] _ (Nat.zero_le 2) (Nat.le_refl 1)
  | pop =>
    match stack with
    | [] => exact .refl _
    | v :: rest => exact Moves.of_stack [v] [] _ (Nat.le_succ 1) (Nat.zero_le 1)
  | jump distance => exact leaves_jump distance
  | jumpIfFalse distance =>
    match stack with
    | [] => exact .refl _
    | .number n :: rest => exact Drops.refl _
    | .boolean true :: rest => exact Moves.of_stack [] [] _ (Nat.zero_le 2) (Nat.zero_le 1)
    | .boolean false :: rest => exact leaves_jump distance
  | store slot =>
    match stack with
    | [] => exact .refl _
    | v :: rest => exact leaves_store slot v
  | load slot => exact leaves_load slot

/-! ### Executing -/

/-- All that can happen where the machine stands: the bytes there are no instruction and nothing is
done, or an instruction has been decoded, and succeeds or faults. -/
inductive Executes (chunk : Chunk) (m : Machine) : EStateM.Result Fault Machine Unit → Prop where
  | undecoded {e : DecodeError} (h : chunk.decode m.ip = .error e) :
      Executes chunk m (.error (.of chunk m.ip (.decode e)) m)
  | succeeds {i : Instruction} {m' : Machine} (h : chunk.decode m.ip = .ok i)
      (happly : ActionM.apply chunk.size i { m with ip := m.ip + i.size } = .ok () m')
      (hleaves : Moves chunk.size { m with ip := m.ip + i.size } m') : Executes chunk m (.ok () m')
  | faults {i : Instruction} {cause : FaultCause} {m' : Machine} (h : chunk.decode m.ip = .ok i)
      (happly : ActionM.apply chunk.size i { m with ip := m.ip + i.size } = .error cause m')
      (hleaves : Drops { m with ip := m.ip + i.size } m') :
      Executes chunk m (.error (.of chunk m.ip cause) m')

theorem execute_of_apply {chunk : Chunk} {m m' : Machine} {i : Instruction}
    (h : chunk.decode m.ip = .ok i)
    (happly : ActionM.apply chunk.size i { m with ip := m.ip + i.size } = .ok () m') :
    m.execute chunk = .ok () m' := by
  simp only [execute, h, happly]

theorem execute_of_apply_error {chunk : Chunk} {m m' : Machine} {i : Instruction} {cause : FaultCause}
    (h : chunk.decode m.ip = .ok i)
    (happly : ActionM.apply chunk.size i { m with ip := m.ip + i.size } = .error cause m') :
    m.execute chunk = .error (.of chunk m.ip cause) m' := by
  simp only [execute, h, happly]

theorem executes (chunk : Chunk) (m : Machine) : m.Executes chunk (m.execute chunk) := by
  unfold execute
  cases hdecode : chunk.decode m.ip with
  | error e => exact .undecoded hdecode
  | ok i =>
    have hleaves := leaves_apply chunk.size i { m with ip := m.ip + i.size }
    simp only
    cases happly : ActionM.apply chunk.size i { m with ip := m.ip + i.size } with
    | ok _ m' =>
      rw [happly] at hleaves
      exact .succeeds hdecode happly hleaves
    | error cause m' =>
      rw [happly] at hleaves
      exact .faults hdecode happly hleaves

end Machine

end BoundedLoop
