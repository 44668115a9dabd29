import BoundedLoop.Proofs.Semantics.Effects
import Mathlib.Data.List.Induction

/-!
# Which bytes are decoded

An instruction is decoded only where its bytes stand (`Chunk.drop_of_decode`). For most instructions
these are the bytes that are written for it; only the payload of a boolean can be one of many
(`Instruction.SpelledBy`). What is wrong with bytes that are no instruction depends on the first two of
them, and on how many there are (`Chunk.decode_error_congr`).
-/

namespace BoundedLoop

/-! ### Bytes of numbers -/

namespace BigEndian

/-- The last digit is written last. -/
theorem encode_succ (width n : Nat) :
    encode (width + 1) n = encode width (n / 256) ++ [UInt8.ofNat n] := by
  induction width with
  | zero =>
    rw [encode]
    show [UInt8.ofNat (n / 1)] = _
    rw [Nat.div_one]
    rfl
  | succ width ih =>
    have hdigit : n / 256 / Nat.pow 256 width = n / Nat.pow 256 (width + 1) := by
      rw [Nat.div_div_eq_div_mul]
      exact congrArg (n / ·) (Nat.mul_comm _ _)
    rw [encode, ih, encode, hdigit]
    rfl

theorem decode_lt (bytes : List UInt8) : decode bytes < Nat.pow 256 bytes.length := by
  induction bytes using List.reverseRecOn with
  | nil => exact Nat.one_pos
  | append_singleton bytes b ih =>
    have hb := b.toNat_lt
    rw [decode_append_singleton, List.length_append, List.length_singleton]
    show _ < Nat.pow 256 bytes.length * 256
    omega

/-- Bytes are written back as they were read. -/
theorem encode_decode (bytes : List UInt8) : encode bytes.length (decode bytes) = bytes := by
  induction bytes using List.reverseRecOn with
  | nil => rfl
  | append_singleton bytes b ih =>
    have hb := b.toNat_lt
    have hrest : (decode bytes * 256 + b.toNat) / 256 = decode bytes := by omega
    have hlast : UInt8.ofNat (decode bytes * 256 + b.toNat) = b := by
      apply UInt8.toNat_inj.1
      rw [UInt8.toNat_ofNat']
      omega
    rw [decode_append_singleton, List.length_append, List.length_singleton, encode_succ, hrest, ih,
      hlast]

theorem decode_eq_zero_iff {bytes : List UInt8} : decode bytes = 0 ↔ ∀ b ∈ bytes, b = 0 := by
  induction bytes using List.reverseRecOn with
  | nil => exact iff_of_true rfl (List.forall_mem_nil _)
  | append_singleton bytes b ih =>
    have hb : b.toNat = 0 ↔ b = 0 := by rw [← UInt8.toNat_inj]; rfl
    rw [decode_append_singleton, List.forall_mem_append, List.forall_mem_singleton, ← ih, ← hb]
    omega

end BigEndian

/-! ### Bytes of instructions -/

/-- The operands that are decoded to those of `i`: the ones that are written for it, and for a boolean
every payload of the same truth. -/
def Instruction.SpelledBy (i : Instruction) (operands : List UInt8) : Prop :=
  operands = i.operandBytes ∨
    ∃ b payload, i = .push (.boolean b) ∧ operands = 1 :: payload ∧ payload.length = 8 ∧
      (b = true ↔ ∃ byte ∈ payload, byte ≠ 0)

namespace Chunk

variable {c c' : Chunk} {offset n : Nat}

theorem exists_drop_of_byteAt? {byte : UInt8} (h : c.byteAt? offset = some byte) :
    ∃ rest, c.bytes.drop offset = byte :: rest := by
  rw [byteAt?_eq] at h
  obtain ⟨hlt, rfl⟩ := List.getElem?_eq_some_iff.1 h
  exact ⟨_, List.drop_eq_getElem_cons hlt⟩

theorem exists_drop_of_bytesAt? {front : List UInt8} (h : c.bytesAt? offset n = some front) :
    front.length = n ∧ ∃ rest, c.bytes.drop offset = front ++ rest := by
  induction n generalizing offset front with
  | zero =>
    cases h
    exact ⟨rfl, _, rfl⟩
  | succ n ih =>
    obtain ⟨byte, hbyte, h⟩ := Option.bind_eq_some_iff.1 h
    obtain ⟨behind, hbehind, h⟩ := Option.bind_eq_some_iff.1 h
    cases h
    obtain ⟨hlength, rest, hrest⟩ := ih hbehind
    obtain ⟨rest', hdrop⟩ := exists_drop_of_byteAt? hbyte
    refine ⟨congrArg (· + 1) hlength, rest, ?_⟩
    rw [hdrop, ← drop_succ_of_drop hdrop, hrest]
    rfl

theorem exists_drop_of_operandBytes {op : Opcode} {front : List UInt8}
    (h : c.operandBytes op offset n = .ok front) :
    front.length = n ∧ ∃ rest, c.bytes.drop offset = front ++ rest := by
  unfold operandBytes at h
  split at h
  · rename_i hbytes
    cases h
    exact exists_drop_of_bytesAt? hbytes
  · cases h

theorem exists_drop_of_decodeSlot {op : Opcode} {slot : UInt8}
    (h : c.decodeSlot op offset = .ok slot) : ∃ rest, c.bytes.drop offset = slot :: rest := by
  unfold decodeSlot at h
  split at h
  · rename_i hbyte
    cases h
    exact exists_drop_of_byteAt? hbyte
  · cases h

theorem exists_drop_of_decodeDistance {op : Opcode} {d : Int16}
    (h : c.decodeDistance op offset = .ok d) :
    ∃ rest, c.bytes.drop offset = Instruction.distanceBytes d ++ rest := by
  obtain ⟨front, hfront, h⟩ := exists_of_bind_ok h
  cases h
  obtain ⟨hlength, rest, hdrop⟩ := exists_drop_of_operandBytes hfront
  refine ⟨rest, ?_⟩
  have hlt := BigEndian.decode_lt front
  have hcode := BigEndian.encode_decode front
  rw [hlength] at hlt hcode
  rw [hdrop, Instruction.distanceBytes, UInt16.toUInt16_toInt16, UInt16.toNat_ofNat',
    Nat.mod_eq_of_lt hlt, hcode]

/-- What the bytes of an embedded value are. -/
theorem exists_drop_of_decodeValue {v : Value} (h : c.decodeValue offset = .ok v) :
    ∃ operands rest, c.bytes.drop offset = operands ++ rest ∧
      (Instruction.push v).SpelledBy operands := by
  obtain ⟨tag, htag, h⟩ := exists_of_bind_ok h
  obtain ⟨payload, hpayload, h⟩ := exists_of_bind_ok h
  obtain ⟨rest, hdrop⟩ := exists_drop_of_decodeSlot htag
  obtain ⟨hlength, rest', hdrop'⟩ := exists_drop_of_operandBytes hpayload
  rw [drop_succ_of_drop hdrop] at hdrop'
  refine ⟨tag :: payload, rest', by rw [hdrop, hdrop', List.cons_append], ?_⟩
  simp only at h
  split at h
  · rename_i htag
    cases h
    have hlt := BigEndian.decode_lt payload
    have hcode := BigEndian.encode_decode payload
    rw [hlength] at hlt hcode
    refine .inl ?_
    rw [htag, Instruction.operandBytes, Instruction.valueBytes, UInt64.toUInt64_toInt64,
      UInt64.toNat_ofNat', Nat.mod_eq_of_lt hlt, hcode]
  · split at h
    · rename_i htag
      cases h
      refine .inr ⟨_, payload, rfl, by rw [htag], hlength, ?_⟩
      rw [bne_iff_ne, Ne, BigEndian.decode_eq_zero_iff]
      simp only [not_forall, exists_prop]
    · cases h

/-- Where an instruction is decoded, its bytes stand. -/
theorem drop_of_decode {i : Instruction} (h : c.decode offset = .ok i) :
    ∃ operands rest, c.bytes.drop offset = i.opcode.toByte :: (operands ++ rest) ∧
      i.SpelledBy operands := by
  obtain ⟨op, hbyte, h⟩ := exists_opcode_of_decode h
  obtain ⟨rest, hdrop⟩ := exists_drop_of_byteAt? hbyte
  have htail := drop_succ_of_drop hdrop
  rw [hdrop]
  cases op with
  | push =>
    obtain ⟨v, hv, rfl⟩ := exists_of_map_ok h
    obtain ⟨operands, rest', hoperands, hspelled⟩ := exists_drop_of_decodeValue hv
    exact ⟨operands, rest', congrArg _ (htail.symm.trans hoperands), hspelled⟩
  | jump | jumpIfFalse =>
    obtain ⟨d, hd, rfl⟩ := exists_of_map_ok h
    obtain ⟨rest', hoperands⟩ := exists_drop_of_decodeDistance hd
    exact ⟨_, rest', congrArg _ (htail.symm.trans hoperands), .inl rfl⟩
  | store | load =>
    obtain ⟨slot, hslot, rfl⟩ := exists_of_map_ok h
    obtain ⟨rest', hoperands⟩ := exists_drop_of_decodeSlot hslot
    exact ⟨[slot], rest', congrArg _ (htail.symm.trans hoperands), .inl rfl⟩
  | _ =>
    cases h
    exact ⟨[], rest, rfl, .inl rfl⟩

theorem byteAt?_add_of_drop {front rest : List UInt8} {k : Nat}
    (h : c.bytes.drop offset = front ++ rest) (hk : k < front.length) :
    c.byteAt? (offset + k) = front[k]? := by
  rw [byteAt?_eq, ← List.getElem?_drop, h, List.getElem?_append_left hk]

/-! ### Errors -/

theorem isSome_bytesAt?_iff : (c.bytesAt? offset n).isSome = true ↔ n ≤ c.size - offset := by
  rw [size_eq_length_bytes, ← List.length_drop]
  constructor
  · intro h
    obtain ⟨front, hfront⟩ := Option.isSome_iff_exists.1 h
    obtain ⟨rfl, rest, hdrop⟩ := exists_drop_of_bytesAt? hfront
    rw [hdrop, List.length_append]
    exact Nat.le_add_right _ _
  · intro h
    have hfront := bytesAt?_of_drop (List.take_append_drop n (c.bytes.drop offset)).symm
    rw [List.length_take, Nat.min_eq_left h] at hfront
    rw [hfront]
    rfl

theorem error_of_map {α β : Type} {r : Except DecodeError α} {f : α → β} {e : DecodeError}
    (h : r.map f = .error e) : r = .error e := by
  cases r with
  | ok a => cases h
  | error e' => exact congrArg Except.error (Except.error.inj h)

theorem error_of_bind {α β : Type} {r : Except DecodeError α} {f : α → Except DecodeError β}
    {e : DecodeError} (h : (r >>= f) = .error e) : r = .error e ∨ ∃ a, r = .ok a ∧ f a = .error e := by
  cases r with
  | ok a => exact .inr ⟨a, rfl, h⟩
  | error e' => exact .inl (congrArg Except.error (Except.error.inj h))

/-- Whether the operands of an instruction are there depends on the size of the code alone. -/
theorem operandBytes_error_congr {op : Opcode} {e : DecodeError} (hsize : c'.size = c.size)
    (h : c.operandBytes op offset n = .error e) : c'.operandBytes op offset n = .error e := by
  unfold operandBytes at h ⊢
  have hsome : (c'.bytesAt? offset n).isSome = true ↔ (c.bytesAt? offset n).isSome = true := by
    rw [isSome_bytesAt?_iff, isSome_bytesAt?_iff, hsize]
  cases hbytes : c.bytesAt? offset n with
  | some front =>
    rw [hbytes] at h
    cases h
  | none =>
    cases hbytes' : c'.bytesAt? offset n with
    | some front =>
      rw [hbytes, hbytes'] at hsome
      cases hsome.1 rfl
    | none =>
      rw [hbytes] at h
      exact h

theorem decodeSlot_congr (op : Opcode) (hbyte : c'.byteAt? offset = c.byteAt? offset) :
    c'.decodeSlot op offset = c.decodeSlot op offset := by
  rw [decodeSlot, decodeSlot, hbyte]

theorem decodeDistance_error_congr {op : Opcode} {e : DecodeError} (hsize : c'.size = c.size)
    (h : c.decodeDistance op offset = .error e) : c'.decodeDistance op offset = .error e := by
  rcases error_of_bind h with hbytes | ⟨front, -, h⟩
  · rw [decodeDistance, operandBytes_error_congr hsize hbytes]
    rfl
  · cases h

/-- An embedded value is refused for its tag, or because it is cut short. -/
theorem decodeValue_error_congr {e : DecodeError} (hsize : c'.size = c.size)
    (hbyte : c'.byteAt? offset = c.byteAt? offset) (h : c.decodeValue offset = .error e) :
    c'.decodeValue offset = .error e := by
  rw [decodeValue, decodeSlot_congr .push hbyte]
  rcases error_of_bind h with htag | ⟨tag, htag, h⟩
  · rw [htag]
    rfl
  rw [htag]
  show (c'.operandBytes .push (offset + 1) 8 >>= _) = _
  rcases error_of_bind h with hpayload | ⟨payload, hpayload, h⟩
  · rw [operandBytes_error_congr hsize hpayload]
    rfl
  cases hpayload' : c'.operandBytes .push (offset + 1) 8 with
  | error e' =>
    rw [operandBytes_error_congr hsize.symm hpayload'] at hpayload
    cases hpayload
  | ok payload' =>
    by_cases hzero : tag = 0
    · rw [if_pos hzero] at h
      cases h
    by_cases hone : tag = 1
    · rw [if_neg hzero, if_pos hone] at h
      cases h
    · rw [if_neg hzero, if_neg hone] at h
      show (if tag = 0 then _ else if tag = 1 then _ else _) = _
      rw [if_neg hzero, if_neg hone]
      exact h

theorem decodeOperands_error_congr {op : Opcode} {e : DecodeError} (hsize : c'.size = c.size)
    (hbyte : c'.byteAt? offset = c.byteAt? offset) (h : c.decodeOperands offset op = .error e) :
    c'.decodeOperands offset op = .error e := by
  cases op with
  | push =>
    rw [decodeOperands, decodeValue_error_congr hsize hbyte (error_of_map h)]
    rfl
  | jump | jumpIfFalse =>
    rw [decodeOperands, decodeDistance_error_congr hsize (error_of_map h)]
    rfl
  | store | load =>
    rw [decodeOperands, decodeSlot_congr _ hbyte]
    exact h
  | _ => cases h

/-- What is wrong at an offset depends on two bytes and the size of the code. -/
theorem decode_error_congr {e : DecodeError} (hsize : c'.size = c.size)
    (hbyte : c'.byteAt? offset = c.byteAt? offset)
    (hnext : c'.byteAt? (offset + 1) = c.byteAt? (offset + 1)) (h : c.decode offset = .error e) :
    c'.decode offset = .error e := by
  cases hat : c.byteAt? offset with
  | none =>
    rw [decode, hat] at h
    rw [decode, hbyte, hat, hsize]
    exact h
  | some byte =>
    rw [hat] at hbyte
    cases hop : Opcode.ofByte? byte with
    | none =>
      simp only [decode, hat, hop] at h
      simp only [decode, hbyte, hop]
      exact h
    | some op =>
      obtain rfl := Opcode.toByte_of_ofByte? hop
      rw [decode_of_byteAt? hat] at h
      rw [decode_of_byteAt? hbyte]
      exact decodeOperands_error_congr hsize hnext h

end Chunk

end BoundedLoop
