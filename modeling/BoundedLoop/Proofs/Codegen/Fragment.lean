import BoundedLoop.Proofs.Codegen.Layout

/-!
# Pieces of code

A fragment is a sequence of instructions to be written, each with its source line. Jumps in it have
distances of any size; `Fragment.Fits` says that they all can be written. `Chunk.append` writes a
fragment at the end of a chunk, and `Chunk.setDistance_append` says what patching does to it.
-/

namespace BoundedLoop

/-- Whether a distance can be the operand of a jump. -/
def FitsJump (distance : Int) : Prop := -32768 ≤ distance ∧ distance ≤ 32767

instance (distance : Int) : Decidable (FitsJump distance) :=
  inferInstanceAs (Decidable (_ ∧ _))

/-- An instruction to be written. The distance of a jump is any integer here. -/
inductive Item where
  | op (i : Instruction) (line : Nat)
  | jump (branch : Branch) (distance : Int) (line : Nat)
deriving DecidableEq

namespace Item

def line : Item → Nat
  | op _ line | jump _ _ line => line

def instruction : Item → Instruction
  | op i _ => i
  | jump branch distance _ => branch.over (Int16.ofInt distance)

def cells (i : Item) : List Cell :=
  i.instruction.encode.map (Cell.mk · i.line)

theorem bytes_cells (i : Item) : i.cells.map Cell.byte = i.instruction.encode := by
  simp [cells, Function.comp_def]

def Fits : Item → Prop
  | op _ _ => True
  | jump _ distance _ => FitsJump distance

instance (i : Item) : Decidable i.Fits := by
  cases i <;> unfold Fits <;> infer_instance

end Item

/-- A piece of code. -/
abbrev Fragment := List Item

namespace Fragment

def cells (c : Fragment) : List Cell := c.flatMap Item.cells

def size (c : Fragment) : Nat := c.cells.length

/-- Every jump can be written. -/
def Fits (c : Fragment) : Prop := ∀ i ∈ c, i.Fits

instance (c : Fragment) : Decidable c.Fits := inferInstanceAs (Decidable (∀ i ∈ c, _))

@[simp] theorem cells_nil : cells [] = [] := rfl

@[simp] theorem cells_cons (i : Item) (c : Fragment) : cells (i :: c) = i.cells ++ cells c := rfl

@[simp] theorem cells_append (a b : Fragment) : cells (a ++ b) = cells a ++ cells b :=
  List.flatMap_append

@[simp] theorem size_nil : size [] = 0 := rfl

@[simp] theorem size_cons_op (i : Instruction) (line : Nat) (c : Fragment) :
    size (.op i line :: c) = i.size + size c := by
  simp [size, Item.cells, Item.instruction]

@[simp] theorem size_cons_jump (b : Branch) (d : Int) (line : Nat) (c : Fragment) :
    size (.jump b d line :: c) = 3 + size c := by
  cases b <;> simp [size, Item.cells, Item.instruction, Branch.over, Instruction.size,
    Instruction.opcode, Opcode.operandSize]

@[simp] theorem size_append (a b : Fragment) : size (a ++ b) = size a + size b := by
  simp [size]

@[simp] theorem fits_nil : Fits [] := by simp [Fits]

@[simp] theorem fits_cons_op (i : Instruction) (line : Nat) (c : Fragment) :
    Fits (.op i line :: c) ↔ Fits c := by
  simp [Fits, Item.Fits]

@[simp] theorem fits_cons_jump (b : Branch) (d : Int) (line : Nat) (c : Fragment) :
    Fits (.jump b d line :: c) ↔ FitsJump d ∧ Fits c := by
  simp [Fits, Item.Fits]

@[simp] theorem fits_append (a b : Fragment) : Fits (a ++ b) ↔ Fits a ∧ Fits b := by
  simp [Fits, or_imp, forall_and]

end Fragment

/-! ### Sizes of instructions -/

namespace Instruction

@[simp] theorem size_push (v : Value) : (push v).size = 10 := rfl
@[simp] theorem size_pop : pop.size = 1 := rfl
@[simp] theorem size_store (slot : UInt8) : (store slot).size = 2 := rfl
@[simp] theorem size_load (slot : UInt8) : (load slot).size = 2 := rfl
@[simp] theorem size_add : add.size = 1 := rfl
@[simp] theorem size_less : less.size = 1 := rfl
@[simp] theorem size_not : not.size = 1 := rfl

end Instruction

/-! ### Writing code to a chunk -/

namespace Chunk

/-- Writes code at the end of a chunk. -/
def append (c : Chunk) (code : Fragment) : Chunk :=
  { c with cells := c.cells ++ code.cells.toArray }

@[simp] theorem append_nil (c : Chunk) : c.append [] = c := by
  simp [append]

@[simp] theorem append_append (c : Chunk) (a b : Fragment) :
    (c.append a).append b = c.append (a ++ b) := by
  simp [append]

@[simp] theorem size_append (c : Chunk) (code : Fragment) :
    (c.append code).size = c.size + code.size := by
  simp [append, size, Fragment.size]

@[simp] theorem slotCount_append (c : Chunk) (code : Fragment) :
    (c.append code).slotCount = c.slotCount := rfl

theorem emit_eq_append (c : Chunk) (i : Instruction) (line : Nat) :
    c.emit i line = c.append [.op i line] := by
  have hcells : (c.emit i line).cells = (c.append [.op i line]).cells := by
    apply Array.toList_inj.1
    rw [toList_cells_emit]
    simp [append, Item.cells, Item.instruction, Item.line]
  have hslots : (c.emit i line).slotCount = (c.append [.op i line]).slotCount := by simp
  calc c.emit i line = ⟨(c.emit i line).cells, (c.emit i line).slotCount⟩ := rfl
    _ = c.append [.op i line] := by rw [hcells, hslots]

theorem reserve_eq_append (c : Chunk) (b : Branch) (line : Nat) :
    c.reserve b line = c.append [.jump b (-1) line] := by
  rw [reserve, emit_eq_append]
  rfl

theorem modify_append_length_add {α : Type} (f : α → α) (pre : List α) (n : Nat) (post : List α) :
    (pre ++ post).modify (pre.length + n) f = pre ++ post.modify n f := by
  induction pre with
  | nil => simp
  | cons a pre ih =>
    rw [List.length_cons, Nat.add_right_comm, List.cons_append, List.modify_succ_cons, ih]
    rfl

/-- Overwriting the operand of a jump changes its distance, and nothing else. -/
theorem setDistance_append (c : Chunk) (a b : Fragment) (branch : Branch) (old new : Int)
    (line : Nat) :
    (c.append (a ++ .jump branch old line :: b)).setDistance ⟨c.size + a.size + 1⟩
        (Int16.ofInt new) =
      c.append (a ++ .jump branch new line :: b) := by
  have hcells : ∀ d, (c.append (a ++ .jump branch d line :: b)).cells.toList =
      (c.cells.toList ++ a.cells) ++ ((Item.jump branch d line).cells ++ b.cells) := by
    intro d
    simp [append]
  have hlen : c.size + a.size = (c.cells.toList ++ a.cells).length := by
    simp [Chunk.size, Fragment.size]
  simp only [setDistance, setByte]
  refine congrArg (fun cells => Chunk.mk cells c.slotCount)
    (Array.toList_inj.1 (Eq.trans ?_ (hcells new).symm))
  rw [Array.toList_modify, Array.toList_modify, hcells, hlen, Nat.add_assoc,
    modify_append_length_add, modify_append_length_add]
  cases branch <;>
    simp [Item.cells, Item.instruction, Item.line, Branch.over, Instruction.encode,
      Instruction.operandBytes, Instruction.distanceBytes, Instruction.opcode, BigEndian.encode,
      List.modify_succ_cons]

end Chunk

end BoundedLoop
