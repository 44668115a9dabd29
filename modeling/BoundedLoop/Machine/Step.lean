import BoundedLoop.Machine.Fault

/-!
# One instruction

A machine executes one chunk: it has a stack of operands, a slot for each variable, and the offset
of the instruction that comes next. An instruction that faults leaves behind what it has done up to
then: operands that it popped stay popped.
-/

namespace BoundedLoop

structure Machine where
  /-- the offset of the next instruction -/
  ip : Nat := 0
  /-- the operands, topmost first -/
  stack : List Value := []
  /-- the slots; `none` as long as nothing was stored -/
  slots : Array (Option Value)
deriving DecidableEq, Inhabited

namespace Machine

abbrev ActionM := EStateM FaultCause Machine

/-- The machine before the first instruction of a chunk. -/
def ofChunk (chunk : Chunk) : Machine where
  slots := Array.replicate chunk.slotCount none

namespace ActionM

def push (v : Value) : ActionM Unit :=
  modify fun m => { m with stack := v :: m.stack }

def pop : ActionM Value := fun m =>
  match m.stack with
  | [] => .error .stackUnderflow m
  | v :: stack => .ok v { m with stack }

def peek : ActionM Value := do
  match (← get).stack with
  | [] => throw .stackUnderflow
  | v :: _ => return v

/-- Pops the right and then the left operand of `op`, which have to be numbers. -/
def popNumbers (op : Opcode) : ActionM (Int64 × Int64) := do
  let right ← pop
  let left ← pop
  match left, right with
  | .number l, .number r => return (l, r)
  | _, _ => throw (.operandMismatch op left.ty right.ty)

/-- Replaces two numbers by an exact result. -/
def arithmetic (op : Opcode) (f : Int → Int → Int) : ActionM Unit := do
  let (left, right) ← popNumbers op
  match exact64? (f left.toInt right.toInt) with
  | some n => push (.number n)
  | none => throw (.arithmeticOverflow op)

/-- Replaces two numbers by a truth value. -/
def comparison (op : Opcode) (f : Int64 → Int64 → Bool) : ActionM Unit := do
  let (left, right) ← popNumbers op
  push (.boolean (f left right))

/-- The truth value `v`, which is an operand of `op`. -/
def truth (op : Opcode) (v : Value) : ActionM Bool :=
  match v with
  | .boolean b => return b
  | .number _ => throw (.typeMismatch op v.ty)

/-- Jumps by `distance` from the end of the jump instruction, where `ip` is already. The end of the
code, at offset `size`, is a possible target. -/
def jump (size : Nat) (distance : Int16) : ActionM Unit := do
  let target := ((← get).ip : Int) + distance.toInt
  if 0 ≤ target ∧ target ≤ size then
    modify fun m => { m with ip := target.toNat }
  else
    throw (.invalidJump target)

def store (slot : UInt8) (v : Value) : ActionM Unit := do
  let count := (← get).slots.size
  if slot.toNat < count then
    modify fun m => { m with slots := m.slots.setIfInBounds slot.toNat (some v) }
  else
    throw (.invalidSlot slot count)

def load (slot : UInt8) : ActionM Value := do
  let m ← get
  match m.slots[slot.toNat]? with
  | none => throw (.invalidSlot slot m.slots.size)
  | some none => throw (.uninitializedSlot slot)
  | some (some v) => return v

/-- What an instruction does once `ip` has moved behind it. The code is `size` bytes long. -/
def apply (size : Nat) : Instruction → ActionM Unit
  | .add => arithmetic .add (· + ·)
  | .multiply => arithmetic .multiply (· * ·)
  | .greater => comparison .greater fun l r => r < l
  | .less => comparison .less fun l r => l < r
  | .equal => do
    let right ← pop
    let left ← pop
    if left.ty = right.ty then push (.boolean (left = right))
    else throw (.operandMismatch .equal left.ty right.ty)
  | .not => do
    let b ← truth .not (← pop)
    push (.boolean !b)
  | .push v => push v
  | .pop => do
    let _ ← pop
    return
  | .jump distance => jump size distance
  | .jumpIfFalse distance => do
    let b ← truth .jumpIfFalse (← peek)
    if b then return else jump size distance
  | .store slot => do
    let v ← peek
    store slot v
  | .load slot => do
    let v ← load slot
    push v

end ActionM

/-- Executes the instruction that comes next. If its bytes cannot be decoded the machine stays as
it is. -/
def execute (chunk : Chunk) : EStateM Fault Machine Unit := fun m =>
  match chunk.decode m.ip with
  | .error e => .error (.of chunk m.ip (.decode e)) m
  | .ok i =>
    let start := m.ip
    match ActionM.apply chunk.size i { m with ip := start + i.size } with
    | .ok _ m => .ok () m
    | .error cause m => .error (.of chunk start cause) m

end Machine

end BoundedLoop
