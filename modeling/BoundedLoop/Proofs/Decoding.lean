import BoundedLoop.Proofs.Decoding.Bytes

/-!
# Decoding loses nothing

Any bytes are taken apart by decoding: the items of a chunk lie one behind the other and fill it
(`Chunk.contiguous_instructionsFrom`). Writing the items again (`Chunk.reencoded`) gives the same bytes
but for the payloads of booleans, and these bytes are taken apart into the same items
(`decoding_loses_nothing`).

That an error is found again is the delicate part: it may depend on the byte behind it, but the next item
begins there, and the first byte of an item is always written as it was.
-/

namespace BoundedLoop

namespace Chunk

variable {c : Chunk} {offset : Nat}

/-! ### Items -/

/-- The items lie one behind the other up to `stop`: each begins where the one in front of it ends,
behind its instruction or behind the one byte that begins none. -/
def Contiguous (stop : Nat) : Nat → List (Nat × Except DecodeError Instruction) → Prop
  | start, [] => start = stop
  | start, (offset, decoded) :: items =>
    offset = start ∧ Contiguous stop (start + stride decoded) items

theorem instructionsFrom_of_lt (h : offset < c.size) : c.instructionsFrom offset =
    (offset, c.decode offset) :: c.instructionsFrom (offset + stride (c.decode offset)) := by
  rw [instructionsFrom, if_pos h]

theorem instructionsFrom_of_le (h : c.size ≤ offset) : c.instructionsFrom offset = [] := by
  rw [instructionsFrom, if_neg (Nat.not_lt.2 h)]

/-- No item goes beyond the end. -/
theorem add_stride_le (h : offset < c.size) : offset + stride (c.decode offset) ≤ c.size := by
  cases hdecode : c.decode offset with
  | ok i => exact add_size_le_of_decode hdecode
  | error e => exact h

/-- The items from an offset on fill the rest of the code. -/
theorem contiguous_instructionsFrom (h : offset ≤ c.size) :
    Contiguous c.size offset (c.instructionsFrom offset) := by
  induction offset using instructionsFrom.induct (c := c) with
  | case1 offset hlt decoded ih =>
    rw [instructionsFrom_of_lt hlt]
    exact ⟨rfl, ih (add_stride_le hlt)⟩
  | case2 offset hge =>
    rw [instructionsFrom_of_le (Nat.not_lt.1 hge)]
    exact Nat.le_antisymm h (Nat.not_lt.1 hge)

theorem of_mem_instructionsFrom {k : Nat} {decoded : Except DecodeError Instruction}
    (h : (k, decoded) ∈ c.instructionsFrom offset) : k < c.size ∧ decoded = c.decode k := by
  induction offset using instructionsFrom.induct (c := c) with
  | case1 offset hlt _ ih =>
    rw [instructionsFrom_of_lt hlt] at h
    rcases List.mem_cons.1 h with h | h
    · cases h
      exact ⟨hlt, rfl⟩
    · exact ih h
  | case2 offset hge =>
    rw [instructionsFrom_of_le (Nat.not_lt.1 hge)] at h
    cases h

namespace Contiguous

variable {start stop : Nat} {items : List (Nat × Except DecodeError Instruction)}

theorem add_length_le (h : Contiguous stop start items) : start + items.length ≤ stop := by
  induction items generalizing start with
  | nil => exact Nat.le_of_eq h
  | cons q items ih =>
    have hpos := stride_pos q.2
    have hle := ih h.2
    rw [List.length_cons]
    omega

/-- Every byte belongs to an item. -/
theorem exists_mem (h : Contiguous stop start items) {k : Nat} (hstart : start ≤ k) (hstop : k < stop) :
    ∃ o decoded, (o, decoded) ∈ items ∧ o ≤ k ∧ k < o + stride decoded := by
  induction items generalizing start with
  | nil =>
    have heq : start = stop := h
    omega
  | cons q items ih =>
    obtain ⟨rfl, hitems⟩ := h
    by_cases hk : k < q.1 + stride q.2
    · exact ⟨q.1, q.2, List.mem_cons_self, hstart, hk⟩
    · obtain ⟨o, decoded, hmem, hcovers⟩ := ih hitems (Nat.not_lt.1 hk)
      exact ⟨o, decoded, List.mem_cons_of_mem _ hmem, hcovers⟩

end Contiguous

/-! ### Writing items again -/

/-- Writes an instruction: a jump and what has no operands begin with the opcode alone. -/
def rewrite (out : Chunk) (line : Nat) : Instruction → Chunk
  | .push v => out.emit (.push v) line
  | .store slot => out.emit (.store slot) line
  | .load slot => out.emit (.load slot) line
  | .jump d => (out.writeOpcode .jump line).writeWord d.toUInt16 line
  | .jumpIfFalse d => (out.writeOpcode .jumpIfFalse line).writeWord d.toUInt16 line
  | i => out.writeOpcode i.opcode line

theorem rewrite_eq_emit (out : Chunk) (line : Nat) (i : Instruction) :
    out.rewrite line i = out.emit i line := by
  cases i <;> rfl

/-- Writes an item of `c`: the instruction, or a copy of the byte that begins none. -/
def copyItem (c out : Chunk) : Nat × Except DecodeError Instruction → Chunk
  | (offset, .ok i) => out.rewrite ((c.lineAt? offset).getD 0) i
  | (offset, .error _) => out.writeAll (c.byteAt? offset).toList ((c.lineAt? offset).getD 0)

/-- The chunk with all its items written again. -/
def reencoded (c : Chunk) : Chunk :=
  c.instructions.foldl c.copyItem { slotCount := c.slotCount }

/-- The bytes that are written for an item. -/
def itemBytes (c : Chunk) : Nat × Except DecodeError Instruction → List UInt8
  | (_, .ok i) => i.encode
  | (offset, .error _) => (c.byteAt? offset).toList

/-- The bytes that are written for the items from `offset` on. -/
def bytesFrom (c : Chunk) (offset : Nat) : List UInt8 :=
  (c.instructionsFrom offset).flatMap c.itemBytes

theorem bytes_writeAll (out : Chunk) (written : List UInt8) (line : Nat) :
    (out.writeAll written line).bytes = out.bytes ++ written := by
  simp [bytes, toList_cells_writeAll, Function.comp_def]

theorem bytes_copyItem (c out : Chunk) (q : Nat × Except DecodeError Instruction) :
    (c.copyItem out q).bytes = out.bytes ++ c.itemBytes q := by
  obtain ⟨offset, decoded⟩ := q
  cases decoded with
  | ok i =>
    rw [copyItem, rewrite_eq_emit]
    exact bytes_writeAll _ _ _
  | error e => exact bytes_writeAll _ _ _

theorem bytes_foldl_copyItem (c out : Chunk) (items : List (Nat × Except DecodeError Instruction)) :
    (items.foldl c.copyItem out).bytes = out.bytes ++ items.flatMap c.itemBytes := by
  induction items generalizing out with
  | nil => exact (List.append_nil _).symm
  | cons q items ih =>
    rw [List.foldl_cons, ih, bytes_copyItem, List.flatMap_cons, List.append_assoc]

theorem bytes_reencoded (c : Chunk) : c.reencoded.bytes = c.bytesFrom 0 :=
  bytes_foldl_copyItem c _ c.instructions

theorem bytesFrom_of_lt (h : offset < c.size) : c.bytesFrom offset =
    c.itemBytes (offset, c.decode offset) ++ c.bytesFrom (offset + stride (c.decode offset)) := by
  rw [bytesFrom, instructionsFrom_of_lt h]
  rfl

theorem bytesFrom_of_le (h : c.size ≤ offset) : c.bytesFrom offset = [] := by
  rw [bytesFrom, instructionsFrom_of_le h]
  rfl

theorem exists_byteAt? (h : offset < c.size) : ∃ byte, c.byteAt? offset = some byte := by
  rw [byteAt?_eq]
  exact ⟨_, List.getElem?_eq_getElem (by rwa [← size_eq_length_bytes])⟩

theorem byteAt?_of_le (h : c.size ≤ offset) : c.byteAt? offset = none := by
  rw [byteAt?_eq, List.getElem?_eq_none (by rwa [← size_eq_length_bytes])]

/-- An item is written with as many bytes as it has. -/
theorem length_itemBytes (h : offset < c.size) :
    (c.itemBytes (offset, c.decode offset)).length = stride (c.decode offset) := by
  cases c.decode offset with
  | ok i => exact i.length_encode
  | error e =>
    obtain ⟨byte, hbyte⟩ := exists_byteAt? h
    rw [itemBytes, hbyte]
    rfl

theorem length_bytesFrom (h : offset ≤ c.size) : (c.bytesFrom offset).length = c.size - offset := by
  induction offset using instructionsFrom.induct (c := c) with
  | case1 offset hlt decoded ih =>
    have hle := add_stride_le hlt
    rw [bytesFrom_of_lt hlt, List.length_append, length_itemBytes hlt, ih hle]
    show _ + (c.size - (offset + stride (c.decode offset))) = _
    omega
  | case2 offset hge =>
    rw [bytesFrom_of_le (Nat.not_lt.1 hge), List.length_nil]
    omega

theorem size_reencoded (c : Chunk) : c.reencoded.size = c.size := by
  rw [size_eq_length_bytes, bytes_reencoded, length_bytesFrom (Nat.zero_le _), Nat.sub_zero]

/-- The first byte of an item is written as it was. -/
theorem head?_bytesFrom (c : Chunk) (offset : Nat) : (c.bytesFrom offset).head? = c.byteAt? offset := by
  by_cases hlt : offset < c.size
  · rw [bytesFrom_of_lt hlt]
    cases hdecode : c.decode offset with
    | ok i =>
      obtain ⟨operands, rest, hdrop, -⟩ := drop_of_decode hdecode
      rw [byteAt?_of_drop hdrop]
      rfl
    | error e =>
      obtain ⟨byte, hbyte⟩ := exists_byteAt? hlt
      rw [itemBytes, hbyte]
      rfl
  · have hle := Nat.not_lt.1 hlt
    rw [bytesFrom_of_le hle, byteAt?_of_le hle]
    rfl

/-! ### Reading what was written again -/

/-- From `offset` on, the chunk that was written again has the bytes of the items from there. -/
def Resumes (c : Chunk) (offset : Nat) : Prop :=
  c.reencoded.bytes.drop offset = c.bytesFrom offset

namespace Resumes

variable {k : Nat}

theorem zero (c : Chunk) : c.Resumes 0 := c.bytes_reencoded

/-- It does so behind an item if it does so in front. -/
theorem next (h : c.Resumes offset) (hlt : offset < c.size) :
    c.Resumes (offset + stride (c.decode offset)) := by
  unfold Resumes at h ⊢
  rw [← List.drop_drop, h, bytesFrom_of_lt hlt, ← length_itemBytes hlt, List.drop_left]

theorem of_mem {decoded : Except DecodeError Instruction} (h : c.Resumes offset)
    (hmem : (k, decoded) ∈ c.instructionsFrom offset) : c.Resumes k := by
  induction offset using instructionsFrom.induct (c := c) with
  | case1 offset hlt _ ih =>
    rw [instructionsFrom_of_lt hlt] at hmem
    rcases List.mem_cons.1 hmem with heq | hmem
    · cases heq
      exact h
    · exact ih (h.next hlt) hmem
  | case2 offset hge =>
    rw [instructionsFrom_of_le (Nat.not_lt.1 hge)] at hmem
    cases hmem

theorem byteAt? (h : c.Resumes offset) : c.reencoded.byteAt? offset = c.byteAt? offset := by
  rw [← head?_bytesFrom c offset, ← h, List.head?_drop, byteAt?_eq]

theorem drop_of_ok {i : Instruction} (h : c.Resumes offset) (hdecode : c.decode offset = .ok i) :
    ∃ rest, c.reencoded.bytes.drop offset = i.encode ++ rest := by
  have hlt : offset < c.size := by
    have hend := add_size_le_of_decode hdecode
    have hpos := stride_pos (.ok i)
    simp only [stride] at hpos
    omega
  refine ⟨c.bytesFrom (offset + stride (c.decode offset)), ?_⟩
  rw [h, bytesFrom_of_lt hlt, hdecode]
  rfl

/-- Each item is found again. Behind an error, the next byte is the first one of an item. -/
theorem decode (h : c.Resumes offset) (hlt : offset < c.size) :
    c.reencoded.decode offset = c.decode offset := by
  cases hdecode : c.decode offset with
  | ok i =>
    obtain ⟨rest, hdrop⟩ := h.drop_of_ok hdecode
    exact decode_of_drop hdrop
  | error e =>
    have hnext := h.next hlt
    rw [hdecode] at hnext
    exact decode_error_congr c.size_reencoded h.byteAt? hnext.byteAt? hdecode

theorem instructionsFrom (h : c.Resumes offset) :
    c.reencoded.instructionsFrom offset = c.instructionsFrom offset := by
  induction offset using Chunk.instructionsFrom.induct (c := c) with
  | case1 offset hlt _ ih =>
    rw [instructionsFrom_of_lt hlt, instructionsFrom_of_lt (by rwa [size_reencoded]), h.decode hlt]
    exact congrArg _ (ih (h.next hlt))
  | case2 offset hge =>
    have hle := Nat.not_lt.1 hge
    rw [instructionsFrom_of_le hle, instructionsFrom_of_le (by rwa [size_reencoded])]

/-- The bytes of an item are written as they were, but for the payload of a boolean. -/
theorem byteAt?_add (h : c.Resumes offset) (hk : k < stride (c.decode offset))
    (hpayload : ∀ b, c.decode offset = .ok (.push (.boolean b)) → k < 2) :
    c.reencoded.byteAt? (offset + k) = c.byteAt? (offset + k) := by
  cases hdecode : c.decode offset with
  | error e =>
    rw [hdecode] at hk
    obtain rfl : k = 0 := Nat.lt_one_iff.1 hk
    exact h.byteAt?
  | ok i =>
    obtain ⟨rest, hdrop⟩ := h.drop_of_ok hdecode
    obtain ⟨operands, rest', hdrop', rfl | ⟨b, payload, rfl, rfl, -, -⟩⟩ := drop_of_decode hdecode
    · rw [hdecode, stride, ← i.length_encode] at hk
      rw [byteAt?_add_of_drop hdrop hk]
      exact (byteAt?_add_of_drop hdrop' hk).symm
    · -- the opcode and the tag are the same
      have hfront : ∃ behind, c.reencoded.bytes.drop offset = [6, 1] ++ behind := ⟨_, hdrop⟩
      have hfront' : ∃ behind, c.bytes.drop offset = [6, 1] ++ behind := ⟨_, hdrop'⟩
      obtain ⟨behind, hfront⟩ := hfront
      obtain ⟨behind', hfront'⟩ := hfront'
      have hk : k < [(6 : UInt8), 1].length := hpayload b hdecode
      rw [byteAt?_add_of_drop hfront hk, byteAt?_add_of_drop hfront' hk]

/-- A boolean is written with a payload of zero or one. -/
theorem bytesAt?_payload {b : Bool} (h : c.Resumes offset)
    (hdecode : c.decode offset = .ok (.push (.boolean b))) :
    c.reencoded.bytesAt? (offset + 2) 8 = some (List.replicate 7 0 ++ [b.toUInt8]) := by
  obtain ⟨rest, hdrop⟩ := h.drop_of_ok hdecode
  have hpayload : BigEndian.encode 8 b.toNat = List.replicate 7 0 ++ [b.toUInt8] := by
    cases b <;> decide
  have hbytes := bytesAt?_of_drop (drop_succ_of_drop (drop_succ_of_drop hdrop))
  rwa [hpayload] at hbytes

end Resumes

/-- What was written again has the same bytes outside of the payloads of booleans. -/
theorem byteAt?_reencoded {k : Nat}
    (h : ∀ o b, (o, .ok (.push (.boolean b))) ∈ c.instructions → k < o + 2 ∨ o + 10 ≤ k) :
    c.reencoded.byteAt? k = c.byteAt? k := by
  by_cases hlt : k < c.size
  · obtain ⟨o, decoded, hmem, hle, hbefore⟩ :=
      (contiguous_instructionsFrom (Nat.zero_le _)).exists_mem (Nat.zero_le k) hlt
    obtain ⟨j, rfl⟩ := Nat.exists_eq_add_of_le hle
    obtain ⟨-, rfl⟩ := of_mem_instructionsFrom hmem
    refine ((Resumes.zero c).of_mem hmem).byteAt?_add (Nat.lt_of_add_lt_add_left hbefore) ?_
    intro b hdecode
    rw [hdecode] at hmem hbefore
    have hend : o + j < o + 10 := hbefore
    rcases h o b hmem with hj | hj <;> omega
  · have hle := Nat.not_lt.1 hlt
    rw [byteAt?_of_le hle, byteAt?_of_le (by rwa [size_reencoded])]

/-- A boolean is decoded from a payload of eight bytes, of which one is set if it is `YES`. -/
theorem exists_payload_of_decode {b : Bool} (h : c.decode offset = .ok (.push (.boolean b))) :
    ∃ payload, c.bytesAt? (offset + 2) 8 = some payload ∧ (b = true ↔ ∃ byte ∈ payload, byte ≠ 0) := by
  obtain ⟨operands, rest, hdrop, rfl | ⟨_, payload, ⟨⟩, rfl, hlength, hb⟩⟩ := drop_of_decode h
  · have hpayload : b = true ↔ ∃ byte ∈ BigEndian.encode 8 b.toNat, byte ≠ 0 := by
      cases b <;> decide
    exact ⟨_, bytesAt?_of_drop (drop_succ_of_drop (drop_succ_of_drop hdrop)), hpayload⟩
  · refine ⟨payload, ?_, hb⟩
    rw [← hlength]
    exact bytesAt?_of_drop (drop_succ_of_drop (drop_succ_of_drop hdrop))

end Chunk

open Chunk

/-- Any bytes are taken apart into items that lie one behind the other from the start to the end, so
there are no more of them than bytes. Each is what is decoded at its offset, an instruction if the bytes
of one stand there, and instructions lie inside the code. Writing the items again gives code of the same
size and with the same bytes, but for the payload of a boolean: that becomes zero or one, as it was zero
or not. And the code that was written is taken apart into the same items. -/
theorem decoding_loses_nothing (c : Chunk) :
    (Contiguous c.size 0 c.instructions ∧ c.instructions.length ≤ c.size ∧
      (∀ k decoded, (k, decoded) ∈ c.instructions → decoded = c.decode k ∧
        ∀ i rest, c.bytes.drop k = i.encode ++ rest → decoded = .ok i) ∧
      ∀ k i, (k, .ok i) ∈ c.instructions → k + i.size ≤ c.size) ∧
    (c.reencoded.size = c.size ∧
      (∀ k, (∀ o b, (o, .ok (.push (.boolean b))) ∈ c.instructions → k < o + 2 ∨ o + 10 ≤ k) →
        c.reencoded.byteAt? k = c.byteAt? k) ∧
      ∀ o b, (o, .ok (.push (.boolean b))) ∈ c.instructions →
        c.reencoded.bytesAt? (o + 2) 8 = some (List.replicate 7 0 ++ [b.toUInt8]) ∧
        ∃ payload, c.bytesAt? (o + 2) 8 = some payload ∧
          (b = true ↔ ∃ byte ∈ payload, byte ≠ 0)) ∧
    c.reencoded.instructions = c.instructions := by
  have hcontiguous : Contiguous c.size 0 c.instructions := contiguous_instructionsFrom (Nat.zero_le _)
  have hstart := Resumes.zero c
  refine ⟨⟨hcontiguous, ?_, ?_, ?_⟩, ⟨c.size_reencoded, fun k => byteAt?_reencoded, ?_⟩,
    hstart.instructionsFrom⟩
  · have hle := hcontiguous.add_length_le
    rwa [Nat.zero_add] at hle
  · intro k decoded hmem
    obtain ⟨-, rfl⟩ := of_mem_instructionsFrom hmem
    exact ⟨rfl, fun i rest => decode_of_drop⟩
  · intro k i hmem
    exact add_size_le_of_decode (of_mem_instructionsFrom hmem).2.symm
  · intro o b hmem
    have hdecode := (of_mem_instructionsFrom hmem).2.symm
    exact ⟨(hstart.of_mem hmem).bytesAt?_payload hdecode, exists_payload_of_decode hdecode⟩

end BoundedLoop
