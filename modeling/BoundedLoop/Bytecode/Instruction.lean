import BoundedLoop.Value
import BoundedLoop.Bytecode.Opcode
import BoundedLoop.Bytecode.BigEndian

/-!
# Instructions

An instruction is an opcode with its operand. `encode` gives its bytes: the opcode, then operands
of a fixed width, most significant byte first.
-/

namespace BoundedLoop

inductive Instruction where
  | add
  | multiply
  | equal
  | greater
  | less
  | not
  | push (v : Value)
  | pop
  | jump (distance : Int16)
  | jumpIfFalse (distance : Int16)
  | store (slot : UInt8)
  | load (slot : UInt8)
deriving DecidableEq, Inhabited

/-- When a jump is taken. -/
inductive Branch where
  | always
  | ifFalse
deriving DecidableEq, Inhabited

namespace Instruction

def opcode : Instruction → Opcode
  | add => .add
  | multiply => .multiply
  | equal => .equal
  | greater => .greater
  | less => .less
  | not => .not
  | push _ => .push
  | pop => .pop
  | jump _ => .jump
  | jumpIfFalse _ => .jumpIfFalse
  | store _ => .store
  | load _ => .load

/-- The number of bytes of an instruction, its opcode included. -/
def size (i : Instruction) : Nat :=
  1 + i.opcode.operandSize

/-- The tag byte and the eight payload bytes of an embedded value. -/
def valueBytes : Value → List UInt8
  | .number n => 0 :: BigEndian.encode 8 n.toUInt64.toNat
  | .boolean b => 1 :: BigEndian.encode 8 b.toNat

def distanceBytes (distance : Int16) : List UInt8 :=
  BigEndian.encode 2 distance.toUInt16.toNat

def operandBytes : Instruction → List UInt8
  | add | multiply | equal | greater | less | not | pop => []
  | push v => valueBytes v
  | jump d | jumpIfFalse d => distanceBytes d
  | store slot | load slot => [slot]

def encode (i : Instruction) : List UInt8 :=
  i.opcode.toByte :: i.operandBytes

@[simp] theorem length_encode (i : Instruction) : i.encode.length = i.size := by
  cases i with
  | push v => cases v <;> simp [encode, operandBytes, valueBytes, size, opcode, Opcode.operandSize]
  | _ => simp [encode, operandBytes, distanceBytes, size, opcode, Opcode.operandSize]

end Instruction

/-- The jump of a kind over a distance. -/
def Branch.over : Branch → Int16 → Instruction
  | .always, d => .jump d
  | .ifFalse, d => .jumpIfFalse d

end BoundedLoop
