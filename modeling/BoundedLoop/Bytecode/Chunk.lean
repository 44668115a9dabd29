import BoundedLoop.Bytecode.Instruction

/-!
# Chunks

A chunk is compiled code: its bytes, each with the source line that it comes from, and the number
of slots that the code needs. Code only grows at its end. A forward jump is written with a
placeholder, and its `Label` is patched once the target is known.
-/

namespace BoundedLoop

/-- A byte of code and the source line that it comes from. -/
structure Cell where
  byte : UInt8
  line : Nat
deriving DecidableEq, Inhabited

structure Chunk where
  cells : Array Cell := #[]
  slotCount : Nat := 0
deriving DecidableEq, Inhabited

/-- A jump distance that a 16-bit operand cannot hold, as a number of 64 bits. -/
structure JumpTooFar where
  distance : Int64
deriving DecidableEq

/-- The explanation given for a jump that is too long. -/
def JumpTooFar.message (e : JumpTooFar) : String :=
  "jump offset " ++ toString e.distance.toInt ++ " is out of range"

/-- The operand of `distance`, if 16 bits can hold it. -/
def exactDistance (distance : Int) : Except JumpTooFar Int16 :=
  if Int16.minValue.toInt ≤ distance ∧ distance ≤ Int16.maxValue.toInt then
    .ok (Int16.ofInt distance)
  else
    .error ⟨Int64.ofInt distance⟩

theorem exactDistance_eq_ok_iff {x : Int} {d : Int16} :
    exactDistance x = .ok d ↔ d.toInt = x := by
  constructor
  · intro h
    simp only [exactDistance] at h
    split at h
    · cases h
      rename_i hx
      exact Int16.toInt_ofInt_of_le hx.1 (Int.lt_add_one_of_le hx.2)
    · cases h
  · rintro rfl
    have hle := d.toInt_le
    have hge := d.le_toInt
    have hmin : Int16.minValue.toInt = -2 ^ 15 := by decide
    have hmax : Int16.maxValue.toInt = 2 ^ 15 - 1 := by decide
    simp only [exactDistance, hmin, hmax, Int16.ofInt_toInt]
    rw [if_pos]
    omega

namespace Chunk

/-- Where the two operand bytes of a placeholder jump begin. -/
structure Label where
  operand : Nat
deriving DecidableEq, Inhabited

/-- The slot that holds the result of a program. -/
def outputSlot : UInt8 := 0

/-- As many slots as a one-byte operand can tell apart. -/
def maxSlots : Nat := 256

def size (c : Chunk) : Nat := c.cells.size

def isEmpty (c : Chunk) : Bool := c.size == 0

def byteAt? (c : Chunk) (offset : Nat) : Option UInt8 :=
  c.cells[offset]?.map Cell.byte

def lineAt? (c : Chunk) (offset : Nat) : Option Nat :=
  c.cells[offset]?.map Cell.line

def bytes (c : Chunk) : List UInt8 :=
  c.cells.toList.map Cell.byte

def lines (c : Chunk) : List Nat :=
  c.cells.toList.map Cell.line

/-- Appends one byte that comes from `line`. -/
def write (c : Chunk) (byte : UInt8) (line : Nat) : Chunk :=
  { c with cells := c.cells.push ⟨byte, line⟩ }

def writeAll (c : Chunk) (bytes : List UInt8) (line : Nat) : Chunk :=
  bytes.foldl (fun c b => c.write b line) c

/-- Appends a 16-bit word. -/
def writeWord (c : Chunk) (word : UInt16) (line : Nat) : Chunk :=
  c.writeAll (BigEndian.encode 2 word.toNat) line

/-- Appends an opcode alone, without operands. -/
def writeOpcode (c : Chunk) (op : Opcode) (line : Nat) : Chunk :=
  c.write op.toByte line

/-- Appends a whole instruction. -/
def emit (c : Chunk) (i : Instruction) (line : Nat) : Chunk :=
  c.writeAll i.encode line

/-- The label of a jump instruction that begins at the end of `c`. -/
def nextLabel (c : Chunk) : Label :=
  ⟨c.size + 1⟩

/-- Appends a jump whose target is not known yet. The placeholder distance is -1, and the label to
patch is the chunk's `nextLabel` before this. -/
def reserve (c : Chunk) (branch : Branch) (line : Nat) : Chunk :=
  c.emit (branch.over (-1)) line

/-- The distance from behind a label's operand to the end of the chunk. -/
def reach (c : Chunk) (label : Label) : Except JumpTooFar Int16 :=
  exactDistance ((c.size : Int) - ((label.operand + 2 : Nat) : Int))

def setByte (c : Chunk) (offset : Nat) (byte : UInt8) : Chunk :=
  { c with cells := c.cells.modify offset fun cell => { cell with byte } }

/-- Overwrites the operand of a label. -/
def setDistance (c : Chunk) (label : Label) (distance : Int16) : Chunk :=
  let word := distance.toUInt16.toNat
  let high := UInt8.ofNat (word / 256)
  let low := UInt8.ofNat word
  (c.setByte label.operand high).setByte (label.operand + 1) low

/-- What comes of a change that a chunk may refuse: whether it was made, and the chunk that is there
afterwards in either case. -/
structure Outcome where
  answer : Except JumpTooFar Unit
  chunk : Chunk

@[match_pattern]
abbrev Outcome.ok (c : Chunk) : Outcome := ⟨.ok (), c⟩

@[match_pattern]
abbrev Outcome.error {c : Chunk} (e : JumpTooFar) : Outcome := ⟨.error e, c⟩

/-- Makes a placeholder jump lead to the present end of the chunk. -/
def patch (c : Chunk) (label : Label) : Outcome :=
  match c.reach label with
  | .ok distance => .ok (c.setDistance label distance)
  | .error e => .error (c := c) e

/-- The distance of a jump at the end of the chunk to the known offset `target`, which may also lie
in front of the code. -/
def distanceTo (c : Chunk) (target : Int) : Except JumpTooFar Int16 :=
  exactDistance (target - ((c.size + 3 : Nat) : Int))

/-- Appends a jump to the known offset `target`. -/
def emitJumpTo (c : Chunk) (branch : Branch) (target : Int) (line : Nat) : Outcome :=
  match c.distanceTo target with
  | .ok distance => .ok (c.emit (branch.over distance) line)
  | .error e => .error (c := c) e

/-- The next free slot, unless all are taken. -/
def freeSlot? (c : Chunk) : Option UInt8 :=
  if c.slotCount < maxSlots then some (UInt8.ofNat c.slotCount) else none

/-- Takes the next free slot. A chunk whose slots are all taken stays as it is. -/
def takeSlot (c : Chunk) : Chunk :=
  if c.slotCount < maxSlots then { c with slotCount := c.slotCount + 1 } else c

theorem size_eq_length_bytes (c : Chunk) : c.size = c.bytes.length := by simp [size, bytes]

/-! ### Writing only appends -/

theorem toList_cells_writeAll (c : Chunk) (bytes : List UInt8) (line : Nat) :
    (c.writeAll bytes line).cells.toList = c.cells.toList ++ bytes.map (Cell.mk · line) := by
  induction bytes generalizing c with
  | nil => simp [writeAll]
  | cons b bytes ih =>
    have := ih (c.write b line)
    simpa [writeAll, write] using this

@[simp] theorem slotCount_writeAll (c : Chunk) (bytes : List UInt8) (line : Nat) :
    (c.writeAll bytes line).slotCount = c.slotCount := by
  induction bytes generalizing c with
  | nil => rfl
  | cons b bytes ih => exact ih (c.write b line)

theorem toList_cells_emit (c : Chunk) (i : Instruction) (line : Nat) :
    (c.emit i line).cells.toList = c.cells.toList ++ i.encode.map (Cell.mk · line) :=
  toList_cells_writeAll c i.encode line

@[simp] theorem size_emit (c : Chunk) (i : Instruction) (line : Nat) :
    (c.emit i line).size = c.size + i.size := by
  have h := congrArg List.length (toList_cells_emit c i line)
  simpa [size] using h

@[simp] theorem slotCount_emit (c : Chunk) (i : Instruction) (line : Nat) :
    (c.emit i line).slotCount = c.slotCount :=
  slotCount_writeAll c i.encode line

/-! ### Patching changes neither length nor lines -/

@[simp] theorem size_setByte (c : Chunk) (offset : Nat) (byte : UInt8) :
    (c.setByte offset byte).size = c.size := by
  simp [setByte, size]

@[simp] theorem size_setDistance (c : Chunk) (label : Label) (distance : Int16) :
    (c.setDistance label distance).size = c.size := by
  simp [setDistance]

@[simp] theorem lineAt?_setByte (c : Chunk) (offset : Nat) (byte : UInt8) (k : Nat) :
    (c.setByte offset byte).lineAt? k = c.lineAt? k := by
  simp only [setByte, lineAt?, Array.getElem?_modify]
  split <;> simp [Function.comp_def]

@[simp] theorem lineAt?_setDistance (c : Chunk) (label : Label) (distance : Int16) (k : Nat) :
    (c.setDistance label distance).lineAt? k = c.lineAt? k := by
  simp [setDistance]

/-! ### Slots -/

theorem slotCount_takeSlot_le (c : Chunk) (h : c.slotCount ≤ maxSlots) :
    c.takeSlot.slotCount ≤ maxSlots := by
  unfold takeSlot
  split
  · rename_i hlt
    exact hlt
  · exact h

theorem toNat_of_freeSlot? {c : Chunk} {slot : UInt8} (h : c.freeSlot? = some slot) :
    slot.toNat = c.slotCount := by
  unfold freeSlot? at h
  split at h
  · rename_i hlt
    cases h
    exact Nat.mod_eq_of_lt hlt
  · cases h

end Chunk

end BoundedLoop
