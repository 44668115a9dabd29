import BoundedLoop.Bytecode.Decode

/-!
# Faults

Why an execution stops before its end, and where: the offset of the instruction to blame and the
source line that it comes from. A fault at the end of the code has no line.
-/

namespace BoundedLoop

inductive FaultCause where
  | stackUnderflow
  | typeMismatch (op : Opcode) (found : Ty)
  | operandMismatch (op : Opcode) (left right : Ty)
  | invalidJump (target : Int)
  | uninitializedSlot (slot : UInt8)
  | invalidSlot (slot : UInt8) (slotCount : Nat)
  | decode (e : DecodeError)
  | arithmeticOverflow (op : Opcode)
deriving DecidableEq

def FaultCause.message : FaultCause → String
  | stackUnderflow => "stack underflow"
  | typeMismatch op found => op.name ++ " cannot be applied to a '" ++ found.name ++ "' value"
  | operandMismatch op left right =>
    op.name ++ " cannot be applied to '" ++ left.name ++ "' and '" ++ right.name ++ "'"
  | invalidJump target => "jump target " ++ toString target ++ " is outside the chunk"
  | uninitializedSlot slot =>
    "slot " ++ toString slot.toNat ++ " is read before anything was stored in it"
  | invalidSlot slot slotCount =>
    "slot " ++ toString slot.toNat ++ " does not exist, the chunk has " ++ toString slotCount ++
      " slots"
  | decode e => e.message
  | arithmeticOverflow op => op.name ++ " overflowed"

structure Fault where
  cause : FaultCause
  offset : Nat
  line : Option Nat
deriving DecidableEq

namespace Fault

/-- A fault of the instruction at `offset`. -/
def of (chunk : Chunk) (offset : Nat) (cause : FaultCause) : Fault :=
  ⟨cause, offset, chunk.lineAt? offset⟩

def message (f : Fault) : String :=
  let line := match f.line with
    | some line => ", line " ++ toString line
    | none => ""
  f.cause.message ++ " (offset " ++ toString f.offset ++ line ++ ")"

end Fault

end BoundedLoop
