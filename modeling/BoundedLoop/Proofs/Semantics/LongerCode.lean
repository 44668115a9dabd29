import BoundedLoop.Proofs.Semantics.Counting
import BoundedLoop.Proofs.Semantics.Effects

/-!
# Running in longer code

A chunk may be the beginning of a longer one, with more slots (`Chunk.Extends`). What a machine does on
the chunk it does on the longer one too: the bytes of an instruction are the same there, jumps count from
where they stand, and the slots that are more hold nothing and are not touched (`Machine.widen`).
So runs are the same, instruction by instruction (`Machine.after?_widen`), as long as nothing faults
because the code or the slots end (`FaultCause.Inside`).

`ActionM.Widens` compares an action with itself on more slots, and the parts of an instruction are put
together by `Widens.bind`.
-/

namespace BoundedLoop

/-! ### Longer chunks -/

/-- `longer` begins with the code of `chunk` and has as many slots at least. -/
structure Chunk.Extends (longer chunk : Chunk) : Prop where
  cells : chunk.cells.toList <+: longer.cells.toList
  slotCount : chunk.slotCount ≤ longer.slotCount

namespace Chunk.Extends

variable {chunk longer : Chunk} {offset n : Nat}

theorem getElem?_cells (h : longer.Extends chunk) (hlt : offset < chunk.size) :
    longer.cells[offset]? = chunk.cells[offset]? := by
  obtain ⟨rest, hrest⟩ := h.cells
  rw [← Array.getElem?_toList, ← Array.getElem?_toList, ← hrest]
  exact List.getElem?_append_left hlt

theorem size_le (h : longer.Extends chunk) : chunk.size ≤ longer.size := h.cells.length_le

theorem lineAt? (h : longer.Extends chunk) (hlt : offset < chunk.size) :
    longer.lineAt? offset = chunk.lineAt? offset := by
  rw [Chunk.lineAt?, Chunk.lineAt?, h.getElem?_cells hlt]

theorem byteAt? {byte : UInt8} (h : longer.Extends chunk) (hbyte : chunk.byteAt? offset = some byte) :
    longer.byteAt? offset = some byte := by
  rw [← hbyte, Chunk.byteAt?, Chunk.byteAt?, h.getElem?_cells (Chunk.lt_size_of_byteAt? hbyte)]

theorem bytesAt? {bytes : List UInt8} (h : longer.Extends chunk)
    (hbytes : chunk.bytesAt? offset n = some bytes) : longer.bytesAt? offset n = some bytes := by
  induction n generalizing offset bytes with
  | zero => exact hbytes
  | succ n ih =>
    rw [Chunk.bytesAt?] at hbytes ⊢
    obtain ⟨byte, hbyte, hrest⟩ := Option.bind_eq_some_iff.1 hbytes
    obtain ⟨rest, hrest, heq⟩ := Option.bind_eq_some_iff.1 hrest
    rw [h.byteAt? hbyte, Option.bind_eq_bind, Option.bind_some, ih hrest]
    exact heq

theorem operandBytes {op : Opcode} {bytes : List UInt8} (h : longer.Extends chunk)
    (hbytes : chunk.operandBytes op offset n = .ok bytes) :
    longer.operandBytes op offset n = .ok bytes := by
  unfold Chunk.operandBytes at hbytes ⊢
  split at hbytes
  · rename_i hat
    rw [h.bytesAt? hat]
    exact hbytes
  · cases hbytes

theorem decodeSlot {op : Opcode} {slot : UInt8} (h : longer.Extends chunk)
    (hslot : chunk.decodeSlot op offset = .ok slot) : longer.decodeSlot op offset = .ok slot := by
  unfold Chunk.decodeSlot at hslot ⊢
  split at hslot
  · rename_i hbyte
    rw [h.byteAt? hbyte]
    exact hslot
  · cases hslot

theorem decodeDistance {op : Opcode} {d : Int16} (h : longer.Extends chunk)
    (hd : chunk.decodeDistance op offset = .ok d) : longer.decodeDistance op offset = .ok d := by
  obtain ⟨bytes, hbytes, hd⟩ := Chunk.exists_of_bind_ok hd
  rw [Chunk.decodeDistance, h.operandBytes hbytes]
  exact hd

theorem decodeValue {v : Value} (h : longer.Extends chunk) (hv : chunk.decodeValue offset = .ok v) :
    longer.decodeValue offset = .ok v := by
  obtain ⟨tag, htag, hv⟩ := Chunk.exists_of_bind_ok hv
  obtain ⟨bytes, hbytes, hv⟩ := Chunk.exists_of_bind_ok hv
  rw [Chunk.decodeValue, h.decodeSlot htag]
  show (longer.operandBytes .push (offset + 1) 8 >>= _) = _
  rw [h.operandBytes hbytes]
  exact hv

/-- An instruction of the chunk is one of the longer chunk. -/
theorem decode {i : Instruction} (h : longer.Extends chunk) (hi : chunk.decode offset = .ok i) :
    longer.decode offset = .ok i := by
  obtain ⟨op, hbyte, hi⟩ := Chunk.exists_opcode_of_decode hi
  rw [Chunk.decode_of_byteAt? (h.byteAt? hbyte)]
  cases op with
  | push =>
    obtain ⟨v, hv, rfl⟩ := Chunk.exists_of_map_ok hi
    rw [Chunk.decodeOperands, h.decodeValue hv]
    rfl
  | jump | jumpIfFalse =>
    obtain ⟨d, hd, rfl⟩ := Chunk.exists_of_map_ok hi
    rw [Chunk.decodeOperands, h.decodeDistance hd]
    rfl
  | store | load =>
    obtain ⟨slot, hslot, rfl⟩ := Chunk.exists_of_map_ok hi
    rw [Chunk.decodeOperands, h.decodeSlot hslot]
    rfl
  | _ => exact hi

end Chunk.Extends

/-- A fault that has nothing to do with where the code or the slots end. -/
def FaultCause.Inside : FaultCause → Prop
  | .invalidJump _ | .invalidSlot _ _ | .decode _ => False
  | _ => True

namespace Machine

/-- The machine with more slots, in which nothing was stored. -/
def widen (more : Nat) (m : Machine) : Machine :=
  { m with slots := m.slots ++ Array.replicate more none }

@[simp] theorem ip_widen (more : Nat) (m : Machine) : (m.widen more).ip = m.ip := rfl

@[simp] theorem stack_widen (more : Nat) (m : Machine) : (m.widen more).stack = m.stack := rfl

/-- The slots that the machine had hold what they held. -/
theorem getElem?_slots_widen {m : Machine} {slot : Nat} (h : slot < m.slots.size) (more : Nat) :
    (m.widen more).slots[slot]? = m.slots[slot]? :=
  Array.getElem?_append_left h

theorem ofChunk_eq_widen {chunk longer : Chunk} (h : longer.Extends chunk) :
    ofChunk longer = (ofChunk chunk).widen (longer.slotCount - chunk.slotCount) := by
  have hcount := Nat.add_sub_of_le h.slotCount
  simp only [ofChunk, widen, Array.replicate_append_replicate, hcount]

/-! ### Instructions on more slots -/

/-- The second result is the first one on more slots, if that is no fault where something ends. -/
def Widened {α : Type} (more : Nat) :
    EStateM.Result FaultCause Machine α → EStateM.Result FaultCause Machine α → Prop
  | .ok a m, result => result = .ok a (m.widen more)
  | .error cause m, result => cause.Inside → result = .error cause (m.widen more)

namespace ActionM

/-- `action'` does on more slots what `action` does, unless that faults where something ends. -/
def Widens {α : Type} (more : Nat) (action action' : ActionM α) : Prop :=
  ∀ m, Widened more (action m) (action' (m.widen more))

namespace Widens

variable {α β : Type} {more : Nat}

theorem bind {action action' : ActionM α} {f f' : α → ActionM β} (h : action.Widens more action')
    (hf : ∀ a, (f a).Widens more (f' a)) : (action >>= f).Widens more (action' >>= f') := by
  intro m
  have hm := h m
  show Widened more (EStateM.bind action f m) (EStateM.bind action' f' (m.widen more))
  unfold EStateM.bind
  cases haction : action m with
  | ok a m₁ =>
    rw [haction] at hm
    rw [show action' (m.widen more) = .ok a (m₁.widen more) from hm]
    exact hf a m₁
  | error cause m₁ =>
    rw [haction] at hm
    intro hinside
    rw [show action' (m.widen more) = .error cause (m₁.widen more) from hm hinside]

theorem pure (a : α) : (Pure.pure a : ActionM α).Widens more (Pure.pure a) := fun _ => rfl

theorem throw (cause : FaultCause) :
    (MonadExcept.throw cause : ActionM α).Widens more (MonadExcept.throw cause) := fun _ _ => rfl

theorem push (v : Value) : (ActionM.push v).Widens more (ActionM.push v) := fun _ => rfl

theorem pop : ActionM.pop.Widens more ActionM.pop := by
  rintro ⟨k, stack, slots⟩
  cases stack with
  | nil => exact fun _ => rfl
  | cons v stack => rfl

theorem peek : ActionM.peek.Widens more ActionM.peek := by
  rintro ⟨k, stack, slots⟩
  cases stack with
  | nil => exact fun _ => rfl
  | cons v stack => rfl

theorem truth (op : Opcode) (v : Value) : (ActionM.truth op v).Widens more (ActionM.truth op v) := by
  cases v with
  | number n => exact throw _
  | boolean b => exact pure b

theorem popNumbers (op : Opcode) : (ActionM.popNumbers op).Widens more (ActionM.popNumbers op) := by
  refine bind pop fun right => bind pop fun left => ?_
  cases left with
  | boolean b => exact throw _
  | number l =>
    cases right with
    | boolean b => exact throw _
    | number r => exact pure (l, r)

theorem arithmetic (op : Opcode) (f : Int → Int → Int) :
    (ActionM.arithmetic op f).Widens more (ActionM.arithmetic op f) := by
  refine bind (popNumbers op) ?_
  rintro ⟨l, r⟩
  simp only
  generalize exact64? _ = result
  cases result with
  | some n => exact push _
  | none => exact throw _

theorem comparison (op : Opcode) (f : Int64 → Int64 → Bool) :
    (ActionM.comparison op f).Widens more (ActionM.comparison op f) :=
  bind (popNumbers op) fun _ => push _

/-- A jump to a place of the code is one to a place of longer code. -/
theorem jump {size size' : Nat} (hle : size ≤ size') (distance : Int16) :
    (ActionM.jump size distance).Widens more (ActionM.jump size' distance) := by
  rintro ⟨k, stack, slots⟩
  rw [widen, jump_eq, jump_eq]
  split
  · rename_i htarget
    rw [if_pos ⟨htarget.1, Int.le_trans htarget.2 (Int.ofNat_le.2 hle)⟩]
    rfl
  · exact fun hinside => hinside.elim

/-- A slot that is written is one of those that the code has. -/
theorem store (slot : UInt8) (v : Value) :
    (ActionM.store slot v).Widens more (ActionM.store slot v) := by
  rintro ⟨k, stack, slots⟩
  rw [widen, store_eq, store_eq]
  split
  · rename_i hslot
    rw [if_pos (by rw [Array.size_append]; exact Nat.lt_add_right _ hslot),
      Array.setIfInBounds_append_left hslot]
    rfl
  · exact fun hinside => hinside.elim

theorem load (slot : UInt8) : (ActionM.load slot).Widens more (ActionM.load slot) := by
  rintro ⟨k, stack, slots⟩
  rw [widen, load_eq, load_eq]
  by_cases hslot : slot.toNat < slots.size
  · simp only [Array.getElem?_append_left hslot]
    rcases slots[slot.toNat]? with _ | _ | v
    · exact fun hinside => hinside.elim
    · exact fun _ => rfl
    · rfl
  · simp only [Array.getElem?_eq_none (Nat.le_of_not_lt hslot)]
    exact fun hinside => hinside.elim

end Widens

end ActionM

open ActionM

/-- Every instruction does the same in longer code and on more slots, one case for each. -/
theorem widens_apply {size size' : Nat} (more : Nat) (hle : size ≤ size') (i : Instruction) :
    (ActionM.apply size i).Widens more (ActionM.apply size' i) := by
  cases i with
  | add => exact .arithmetic .add _
  | multiply => exact .arithmetic .multiply _
  | greater => exact .comparison .greater fun l r => r < l
  | less => exact .comparison .less fun l r => l < r
  | equal =>
    refine .bind .pop fun right => .bind .pop fun left => ?_
    by_cases hty : left.ty = right.ty
    · rw [if_pos hty]
      exact .push _
    · rw [if_neg hty]
      exact .throw _
  | not => exact .bind .pop fun v => .bind (.truth .not v) fun b => .push _
  | push v => exact .push v
  | pop => exact .bind .pop fun v => .pure _
  | jump distance => exact .jump hle distance
  | jumpIfFalse distance =>
    refine .bind .peek fun v => .bind (.truth .jumpIfFalse v) fun b => ?_
    cases b with
    | true => exact .pure _
    | false => exact .jump hle distance
  | store slot => exact .bind .peek fun v => .store slot v
  | load slot => exact .bind (.load slot) fun v => .push v

/-! ### Runs in longer code -/

variable {chunk longer : Chunk} {m m' last : Machine} {n k more : Nat} {f : Fault}

theorem execute_widen (h : longer.Extends chunk) (hm : m.execute chunk = .ok () m') :
    (m.widen more).execute longer = .ok () (m'.widen more) := by
  have hexecutes := m.executes chunk
  rw [hm] at hexecutes
  cases hexecutes with
  | @succeeds i _ hdecode happly _ =>
    have hwidens := widens_apply more h.size_le i { m with ip := m.ip + i.size }
    rw [happly] at hwidens
    exact execute_of_apply (m := m.widen more) (h.decode hdecode) hwidens

/-- A fault inside is the same fault in longer code, at the same place and line. -/
theorem execute_error_widen (h : longer.Extends chunk) (hm : m.execute chunk = .error f m')
    (hinside : f.cause.Inside) : (m.widen more).execute longer = .error f (m'.widen more) := by
  have hexecutes := m.executes chunk
  rw [hm] at hexecutes
  cases hexecutes with
  | undecoded _ => exact hinside.elim
  | @faults i cause _ hdecode happly _ =>
    have hwidens := widens_apply more h.size_le i { m with ip := m.ip + i.size }
    rw [happly] at hwidens
    have hlt : m.ip < chunk.size := by
      have hend := Chunk.add_size_le_of_decode hdecode
      have hpos : 0 < i.size := by simp only [Instruction.size]; omega
      omega
    have hfault : Fault.of longer m.ip cause = Fault.of chunk m.ip cause := by
      rw [Fault.of, Fault.of, h.lineAt? hlt]
    rw [← hfault]
    exact execute_of_apply_error (m := m.widen more) (h.decode hdecode) (hwidens hinside)

theorem after?_widen (h : longer.Extends chunk) (hm : m.after? chunk n = some m') :
    (m.widen more).after? longer n = some (m'.widen more) := by
  induction n generalizing m with
  | zero =>
    cases hm
    rfl
  | succ n ih =>
    obtain ⟨m₁, hexecute, hn⟩ := exists_of_after?_succ hm
    rw [after?_succ_of_ok (execute_widen h hexecute), ih hn]

/-- A run that faults inside does so in longer code, after as many instructions. -/
theorem StopsAfter.widen (h : longer.Extends chunk)
    (hm : StopsAfter chunk m k last (.fault f) m') (hfin : ¬ last.isFinished chunk = true)
    (hinside : f.cause.Inside) :
    StopsAfter longer (m.widen more) k (last.widen more) (.fault f) (m'.widen more) := by
  refine ⟨after?_widen h hm.after, ?_⟩
  obtain ⟨_, ⟨⟩, hfault⟩ := hm.rests.exists_fault hfin
  refine .faults ?_ (execute_error_widen h hfault hinside)
  -- the longer code ends further on
  have hle := h.size_le
  simp only [isFinished, decide_eq_true_eq] at hfin ⊢
  rw [ip_widen]
  omega

end Machine

end BoundedLoop
