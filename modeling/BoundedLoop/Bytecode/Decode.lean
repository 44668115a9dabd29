import BoundedLoop.Bytecode.Chunk
import BoundedLoop.Text.Layout

/-!
# Decoding

`Chunk.decode` reads the instruction at an offset of arbitrary bytes, and `Chunk.instructions`
reads a chunk from its start to its end: behind each instruction comes the next one, and behind a
byte that begins none the reading goes on one byte further.

`decode_of_drop`: where the bytes of an instruction stand, that instruction is decoded.
-/

namespace BoundedLoop

/-- Why the bytes at an offset are no instruction. -/
inductive DecodeError where
  | invalidOpcode (byte : UInt8)
  | truncated (op : Opcode)
  | invalidLiteralTag (tag : UInt8)
  | outOfBounds (offset size : Nat)
deriving DecidableEq

def DecodeError.message : DecodeError → String
  | invalidOpcode byte => "invalid opcode " ++ Text.hexByte byte
  | truncated op => op.name ++ " instruction is cut short"
  | invalidLiteralTag tag => "invalid literal tag " ++ Text.hexByte tag
  | outOfBounds offset size =>
    "offset " ++ toString offset ++ " is past the end of a " ++ toString size ++ " byte chunk"

namespace Chunk

/-- The `count` bytes from `offset` on, if the chunk has so many. -/
def bytesAt? (c : Chunk) (offset : Nat) : Nat → Option (List UInt8)
  | 0 => some []
  | count + 1 => do
    let byte ← c.byteAt? offset
    let rest ← c.bytesAt? (offset + 1) count
    return byte :: rest

/-- The operand bytes of an instruction `op`, which begin at `offset`. -/
def operandBytes (c : Chunk) (op : Opcode) (offset count : Nat) :
    Except DecodeError (List UInt8) :=
  match c.bytesAt? offset count with
  | some bytes => .ok bytes
  | none => .error (.truncated op)

def decodeDistance (c : Chunk) (op : Opcode) (offset : Nat) : Except DecodeError Int16 := do
  let bytes ← c.operandBytes op offset 2
  return (UInt16.ofNat (BigEndian.decode bytes)).toInt16

def decodeSlot (c : Chunk) (op : Opcode) (offset : Nat) : Except DecodeError UInt8 :=
  match c.byteAt? offset with
  | some slot => .ok slot
  | none => .error (.truncated op)

/-- An embedded value. A boolean is `YES` if any bit of its payload is set; the tag is judged only
when the payload is there. -/
def decodeValue (c : Chunk) (offset : Nat) : Except DecodeError Value := do
  let tag ← c.decodeSlot .push offset
  let bytes ← c.operandBytes .push (offset + 1) 8
  let payload := BigEndian.decode bytes
  if tag = 0 then return .number (UInt64.ofNat payload).toInt64
  else if tag = 1 then return .boolean (payload != 0)
  else throw (.invalidLiteralTag tag)

/-- The instruction that begins at `offset`. -/
def decode (c : Chunk) (offset : Nat) : Except DecodeError Instruction :=
  match c.byteAt? offset with
  | none => .error (.outOfBounds offset c.size)
  | some byte =>
    match Opcode.ofByte? byte with
    | none => .error (.invalidOpcode byte)
    | some .add => .ok .add
    | some .multiply => .ok .multiply
    | some .equal => .ok .equal
    | some .greater => .ok .greater
    | some .less => .ok .less
    | some .not => .ok .not
    | some .pop => .ok .pop
    | some .push => (c.decodeValue (offset + 1)).map .push
    | some .jump => (c.decodeDistance .jump (offset + 1)).map .jump
    | some .jumpIfFalse => (c.decodeDistance .jumpIfFalse (offset + 1)).map .jumpIfFalse
    | some .store => (c.decodeSlot .store (offset + 1)).map .store
    | some .load => (c.decodeSlot .load (offset + 1)).map .load

/-- How far the reading moves on: over the instruction, or over the one byte that begins none. -/
def stride : Except DecodeError Instruction → Nat
  | .ok i => i.size
  | .error _ => 1

theorem stride_pos (r : Except DecodeError Instruction) : 0 < stride r := by
  cases r with
  | ok i => simp only [stride, Instruction.size]; omega
  | error e => exact Nat.one_pos

/-- What is decoded from `offset` on, each item with its own offset. -/
def instructionsFrom (c : Chunk) (offset : Nat) :
    List (Nat × Except DecodeError Instruction) :=
  if offset < c.size then
    let decoded := c.decode offset
    (offset, decoded) :: c.instructionsFrom (offset + stride decoded)
  else
    []
termination_by c.size - offset
decreasing_by have := stride_pos (c.decode offset); omega

/-- What is decoded from the start to the end of the chunk. -/
def instructions (c : Chunk) : List (Nat × Except DecodeError Instruction) :=
  c.instructionsFrom 0

/-- The opcodes of the instructions of a chunk, in order. -/
def opcodes (c : Chunk) : List Opcode :=
  c.instructions.filterMap fun (_, decoded) => decoded.toOption.map Instruction.opcode

/-! ### Decoding what was encoded -/

theorem byteAt?_eq (c : Chunk) (offset : Nat) : c.byteAt? offset = c.bytes[offset]? := by
  simp [byteAt?, bytes]

theorem byteAt?_of_drop {c : Chunk} {offset : Nat} {b : UInt8} {rest : List UInt8}
    (h : c.bytes.drop offset = b :: rest) : c.byteAt? offset = some b := by
  have := congrArg (·[0]?) h
  simpa [byteAt?_eq] using this

theorem drop_succ_of_drop {c : Chunk} {offset : Nat} {b : UInt8} {rest : List UInt8}
    (h : c.bytes.drop offset = b :: rest) : c.bytes.drop (offset + 1) = rest := by
  have := congrArg List.tail h
  simpa using this

theorem bytesAt?_of_drop {c : Chunk} {front rest : List UInt8} {offset : Nat}
    (h : c.bytes.drop offset = front ++ rest) : c.bytesAt? offset front.length = some front := by
  induction front generalizing offset with
  | nil => rfl
  | cons b front ih =>
    have hrest := ih (drop_succ_of_drop h)
    simp [bytesAt?, byteAt?_of_drop h, hrest]

theorem operandBytes_of_drop {c : Chunk} (op : Opcode) {front rest : List UInt8} {offset n : Nat}
    (h : c.bytes.drop offset = front ++ rest) (hn : front.length = n) :
    c.operandBytes op offset n = .ok front := by
  subst hn
  simp [operandBytes, bytesAt?_of_drop h]

theorem decodeSlot_of_drop {c : Chunk} (op : Opcode) {slot : UInt8} {rest : List UInt8}
    {offset : Nat} (h : c.bytes.drop offset = slot :: rest) :
    c.decodeSlot op offset = .ok slot := by
  simp [decodeSlot, byteAt?_of_drop h]

theorem decodeDistance_of_drop {c : Chunk} (op : Opcode) {d : Int16} {rest : List UInt8}
    {offset : Nat} (h : c.bytes.drop offset = Instruction.distanceBytes d ++ rest) :
    c.decodeDistance op offset = .ok d := by
  have hb := operandBytes_of_drop op h (BigEndian.length_encode 2 _)
  have hlt : d.toUInt16.toNat < Nat.pow 256 2 := d.toUInt16.toNat_lt
  simp only [decodeDistance, hb, bind, Except.bind, pure, Except.pure]
  rw [Instruction.distanceBytes, BigEndian.decode_encode, Nat.mod_eq_of_lt hlt]
  simp

theorem decodeValue_of_drop {c : Chunk} {v : Value} {rest : List UInt8} {offset : Nat}
    (h : c.bytes.drop offset = Instruction.valueBytes v ++ rest) :
    c.decodeValue offset = .ok v := by
  cases v with
  | number n =>
    have ht := decodeSlot_of_drop .push h
    have hb := operandBytes_of_drop .push (drop_succ_of_drop h)
      (BigEndian.length_encode 8 _)
    have hlt : n.toUInt64.toNat < Nat.pow 256 8 := n.toUInt64.toNat_lt
    simp only [decodeValue, ht, hb, bind, Except.bind, pure, Except.pure, if_true]
    rw [BigEndian.decode_encode, Nat.mod_eq_of_lt hlt]
    simp
  | boolean b =>
    have ht := decodeSlot_of_drop .push h
    have hb := operandBytes_of_drop .push (drop_succ_of_drop h)
      (BigEndian.length_encode 8 _)
    simp only [decodeValue, ht, hb, bind, Except.bind, pure, Except.pure]
    rw [BigEndian.decode_encode]
    cases b <;> rfl

/-- Where the bytes of an instruction stand, that instruction is decoded. -/
theorem decode_of_drop {c : Chunk} {i : Instruction} {rest : List UInt8} {offset : Nat}
    (h : c.bytes.drop offset = i.encode ++ rest) : c.decode offset = .ok i := by
  have hop := byteAt?_of_drop h
  have htail := drop_succ_of_drop h
  unfold decode
  rw [hop]
  cases i with
  | push v =>
    change (c.decodeValue (offset + 1)).map Instruction.push = _
    rw [decodeValue_of_drop htail]; rfl
  | jump d =>
    change (c.decodeDistance .jump (offset + 1)).map Instruction.jump = _
    rw [decodeDistance_of_drop _ htail]; rfl
  | jumpIfFalse d =>
    change (c.decodeDistance .jumpIfFalse (offset + 1)).map Instruction.jumpIfFalse = _
    rw [decodeDistance_of_drop _ htail]; rfl
  | store slot =>
    change (c.decodeSlot .store (offset + 1)).map Instruction.store = _
    rw [decodeSlot_of_drop _ htail]; rfl
  | load slot =>
    change (c.decodeSlot .load (offset + 1)).map Instruction.load = _
    rw [decodeSlot_of_drop _ htail]; rfl
  | _ => rfl

/-- What has just been written is decoded. -/
theorem decode_emit (c : Chunk) (i : Instruction) (line : Nat) :
    (c.emit i line).decode c.size = .ok i := by
  have h : (c.emit i line).bytes.drop c.size = i.encode ++ [] := by
    simp [bytes, toList_cells_emit, size, Function.comp_def]
  exact decode_of_drop h

end Chunk

end BoundedLoop
