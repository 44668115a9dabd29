/-!
# Opcodes

The twelve operations of the machine. The byte of an opcode is its position in `Opcode.all`.
-/

namespace BoundedLoop

inductive Opcode where
  /-- pops two numbers, pushes their sum -/
  | add
  /-- pops two numbers, pushes their product -/
  | multiply
  /-- pops two values of one type, pushes whether they are equal -/
  | equal
  /-- pops two numbers, pushes whether the lower one is greater -/
  | greater
  /-- pops two numbers, pushes whether the lower one is less -/
  | less
  /-- pops a truth value, pushes its negation -/
  | not
  /-- pushes the embedded value: a type tag and eight bytes -/
  | push
  /-- drops the top of the stack -/
  | pop
  /-- jumps by a signed 16-bit distance, counted from the end of the instruction -/
  | jump
  /-- the same jump, taken if the top of the stack is `NO`, which stays there -/
  | jumpIfFalse
  /-- copies the top of the stack into a slot -/
  | store
  /-- pushes the content of a slot -/
  | load
deriving DecidableEq, Inhabited

namespace Opcode

def toByte : Opcode → UInt8
  | add => 0
  | multiply => 1
  | equal => 2
  | greater => 3
  | less => 4
  | not => 5
  | push => 6
  | pop => 7
  | jump => 8
  | jumpIfFalse => 9
  | store => 10
  | load => 11

/-- All opcodes, in the order of their bytes. -/
def all : List Opcode :=
  [add, multiply, equal, greater, less, not, push, pop, jump, jumpIfFalse, store, load]

def ofByte? (b : UInt8) : Option Opcode :=
  all[b.toNat]?

/-- How many bytes of operands follow the opcode. -/
def operandSize : Opcode → Nat
  | add | multiply | equal | greater | less | not | pop => 0
  | store | load => 1
  | jump | jumpIfFalse => 2
  | push => 9

def name : Opcode → String
  | add => "ADD"
  | multiply => "MULTIPLY"
  | equal => "EQUAL"
  | greater => "GREATER"
  | less => "LESS"
  | not => "NOT"
  | push => "PUSH"
  | pop => "POP"
  | jump => "JUMP"
  | jumpIfFalse => "JUMP_IF_FALSE"
  | store => "STORE"
  | load => "LOAD"

theorem ofByte?_toByte (op : Opcode) : ofByte? op.toByte = some op := by
  cases op <;> rfl

theorem toByte_of_getElem?_all {k : Nat} {op : Opcode} (hk : k < 12) (h : all[k]? = some op) :
    op.toByte = UInt8.ofNat k := by
  match k, hk with
  | 0, _ | 1, _ | 2, _ | 3, _ | 4, _ | 5, _ | 6, _ | 7, _ | 8, _ | 9, _ | 10, _ | 11, _ =>
    cases h; rfl

theorem toByte_of_ofByte? {b : UInt8} {op : Opcode} (h : ofByte? b = some op) :
    op.toByte = b := by
  have hk : b.toNat < 12 := (List.getElem?_eq_some_iff.mp h).1
  rw [toByte_of_getElem?_all hk h, UInt8.ofNat_toNat]

end Opcode

end BoundedLoop
