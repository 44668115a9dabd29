import BoundedLoop.Machine.Run
import BoundedLoop.Proofs.Codegen.Code
import BoundedLoop.Proofs.Semantics.Evaluation
import Mathlib.Logic.Relation

/-!
# Runs of a machine through code

`Chunk.Holds` says that a fragment stands at an offset of a chunk, and `Machine.Steps` that a machine
comes from one state to another. Each instruction has a lemma that says what it does where it stands.

`Machine.Simulates` compares a run with an evaluation: the machine comes to a state that fits the
result, or crashes for the reason that the evaluation fails. Runs and evaluations are composed alike
(`Simulates.bind`).
-/

namespace BoundedLoop

/-! ### Code in a chunk -/

/-- The chunk has `code` at `offset`, and the jumps of the code are written as they should be. -/
structure Chunk.Holds (c : Chunk) (offset : Nat) (code : Fragment) : Prop where
  fits : code.Fits
  cells : ∃ before after, c.cells.toList = before ++ (code.cells ++ after) ∧ before.length = offset

namespace Chunk.Holds

variable {c : Chunk} {k : Nat} {a b code : Fragment} {i : Item}

theorem left (h : c.Holds k (a ++ b)) : c.Holds k a := by
  obtain ⟨hfits, before, after, hcells, hk⟩ := h
  rw [Fragment.fits_append] at hfits
  exact ⟨hfits.1, before, b.cells ++ after, by simpa using hcells, hk⟩

theorem right (h : c.Holds k (a ++ b)) : c.Holds (k + a.size) b := by
  obtain ⟨hfits, before, after, hcells, hk⟩ := h
  rw [Fragment.fits_append] at hfits
  refine ⟨hfits.2, before ++ a.cells, after, by simpa using hcells, ?_⟩
  rw [List.length_append, hk, Fragment.size]

theorem tail {i : Instruction} {line : Nat} (h : c.Holds k (.op i line :: code)) :
    c.Holds (k + i.size) code := by
  have h' := right (a := [.op i line]) h
  rwa [Fragment.size_cons_op, Fragment.size_nil, Nat.add_zero] at h'

theorem tail_jump {branch : Branch} {d : Int} {line : Nat}
    (h : c.Holds k (.jump branch d line :: code)) : c.Holds (k + 3) code := by
  have h' := right (a := [.jump branch d line]) h
  rwa [Fragment.size_cons_jump, Fragment.size_nil, Nat.add_zero] at h'

theorem size_le (h : c.Holds k code) : k + code.size ≤ c.size := by
  obtain ⟨-, before, after, hcells, hk⟩ := h
  have hlen := congrArg List.length hcells
  simp only [Array.length_toList, List.length_append, hk] at hlen
  rw [Chunk.size, Fragment.size]
  omega

theorem decode (h : c.Holds k (i :: code)) : c.decode k = .ok i.instruction := by
  obtain ⟨-, before, after, hcells, hk⟩ := h
  have hdrop : c.bytes.drop k = i.instruction.encode ++ (code.cells ++ after).map Cell.byte := by
    rw [Chunk.bytes, hcells, List.map_append, ← hk, List.drop_left' (by simp), Fragment.cells_cons,
      List.append_assoc, List.map_append, i.bytes_cells]
  exact Chunk.decode_of_drop hdrop

end Chunk.Holds

namespace Machine

/-! ### Steps -/

/-- Some instructions lead from one machine to another. -/
def Steps (chunk : Chunk) : Machine → Machine → Prop :=
  Relation.ReflTransGen fun m m' => m.execute chunk = .ok () m'

/-- After some instructions the machine faults. -/
def Crashes (chunk : Chunk) (m : Machine) (f : Fault) : Prop :=
  ∃ m' m'', Steps chunk m m' ∧ m'.execute chunk = .error f m''

theorem Steps.refl {chunk : Chunk} (m : Machine) : Steps chunk m m := Relation.ReflTransGen.refl

theorem Steps.trans {chunk : Chunk} {m m' m'' : Machine} (h : Steps chunk m m')
    (h' : Steps chunk m' m'') : Steps chunk m m'' :=
  Relation.ReflTransGen.trans h h'

section Instructions

variable {chunk : Chunk} {k line : Nat} {code : Fragment} {stack : List Value}
  {slots : Array (Option Value)}

/-- The machine executes the instruction that it stands at. -/
theorem steps_of_apply {i : Item} {m : Machine} (h : chunk.Holds k (i :: code))
    (happly : ActionM.apply chunk.size i.instruction ⟨k + i.instruction.size, stack, slots⟩ =
      .ok () m) : Steps chunk ⟨k, stack, slots⟩ m := by
  refine Relation.ReflTransGen.single ?_
  simp only [execute, h.decode, happly]

theorem crashes_of_apply {i : Item} {m : Machine} {cause : FaultCause}
    (h : chunk.Holds k (i :: code))
    (happly : ActionM.apply chunk.size i.instruction ⟨k + i.instruction.size, stack, slots⟩ =
      .error cause m) : Crashes chunk ⟨k, stack, slots⟩ (.of chunk k cause) := by
  refine ⟨_, m, Steps.refl _, ?_⟩
  simp only [execute, h.decode, happly]

theorem steps_push {v : Value} (h : chunk.Holds k (.op (.push v) line :: code)) :
    Steps chunk ⟨k, stack, slots⟩ ⟨k + 10, v :: stack, slots⟩ :=
  steps_of_apply h rfl

theorem steps_pop {v : Value} (h : chunk.Holds k (.op .pop line :: code)) :
    Steps chunk ⟨k, v :: stack, slots⟩ ⟨k + 1, stack, slots⟩ :=
  steps_of_apply h rfl

theorem steps_not {b : Bool} (h : chunk.Holds k (.op .not line :: code)) :
    Steps chunk ⟨k, .boolean b :: stack, slots⟩ ⟨k + 1, .boolean (!b) :: stack, slots⟩ :=
  steps_of_apply h rfl

theorem steps_less {l r : Int64} (h : chunk.Holds k (.op .less line :: code)) :
    Steps chunk ⟨k, .number r :: .number l :: stack, slots⟩
      ⟨k + 1, .boolean (l < r) :: stack, slots⟩ :=
  steps_of_apply h rfl

theorem steps_greater {l r : Int64} (h : chunk.Holds k (.op .greater line :: code)) :
    Steps chunk ⟨k, .number r :: .number l :: stack, slots⟩
      ⟨k + 1, .boolean (r < l) :: stack, slots⟩ :=
  steps_of_apply h rfl

theorem steps_equal {l r : Value} (hty : l.ty = r.ty) (h : chunk.Holds k (.op .equal line :: code)) :
    Steps chunk ⟨k, r :: l :: stack, slots⟩ ⟨k + 1, .boolean (l = r) :: stack, slots⟩ := by
  refine steps_of_apply h (Eq.trans (b := (if l.ty = r.ty then ActionM.push (.boolean (l = r))
    else throw (.operandMismatch .equal l.ty r.ty) : ActionM Unit) ⟨k + 1, stack, slots⟩) rfl ?_)
  rw [if_pos hty]
  rfl

theorem apply_arithmetic {op : Opcode} {f : Int → Int → Int} {l r : Int64} :
    ActionM.arithmetic op f ⟨k, .number r :: .number l :: stack, slots⟩ =
      match exact64? (f l.toInt r.toInt) with
      | some n => .ok () ⟨k, .number n :: stack, slots⟩
      | none => .error (.arithmeticOverflow op) ⟨k, stack, slots⟩ := by
  show (match exact64? (f l.toInt r.toInt) with
    | some n => ActionM.push (.number n)
    | none => throw (.arithmeticOverflow op) : ActionM Unit) ⟨k, stack, slots⟩ = _
  cases exact64? (f l.toInt r.toInt) <;> rfl

theorem steps_add {l r n : Int64} (hn : exact64? (l.toInt + r.toInt) = some n)
    (h : chunk.Holds k (.op .add line :: code)) :
    Steps chunk ⟨k, .number r :: .number l :: stack, slots⟩ ⟨k + 1, .number n :: stack, slots⟩ := by
  refine steps_of_apply h (apply_arithmetic.trans ?_)
  rw [hn]
  rfl

theorem steps_store {slot : UInt8} {v : Value} (hslot : slot.toNat < slots.size)
    (h : chunk.Holds k (.op (.store slot) line :: code)) :
    Steps chunk ⟨k, v :: stack, slots⟩
      ⟨k + 2, v :: stack, slots.setIfInBounds slot.toNat (some v)⟩ := by
  refine steps_of_apply h (Eq.trans (b := (if slot.toNat < slots.size then
    modify fun m => { m with slots := m.slots.setIfInBounds slot.toNat (some v) }
    else throw (.invalidSlot slot slots.size) : ActionM Unit) ⟨k + 2, v :: stack, slots⟩) rfl ?_)
  rw [if_pos hslot]
  rfl

theorem apply_load {size : Nat} {slot : UInt8} :
    ActionM.apply size (.load slot) ⟨k, stack, slots⟩ =
      match slots[slot.toNat]? with
      | none => .error (.invalidSlot slot slots.size) ⟨k, stack, slots⟩
      | some none => .error (.uninitializedSlot slot) ⟨k, stack, slots⟩
      | some (some v) => .ok () ⟨k, v :: stack, slots⟩ := by
  have hget : ∀ (g : Machine → ActionM Value) (m : Machine), (get >>= g) m = g m m := fun _ _ => rfl
  show EStateM.bind (ActionM.load slot) _ _ = _
  rw [EStateM.bind, ActionM.load, hget]
  rcases slots[slot.toNat]? with _ | _ | v <;> rfl

theorem steps_load {slot : UInt8} {v : Value} (hv : slots[slot.toNat]? = some (some v))
    (h : chunk.Holds k (.op (.load slot) line :: code)) :
    Steps chunk ⟨k, stack, slots⟩ ⟨k + 2, v :: stack, slots⟩ := by
  refine steps_of_apply h (apply_load.trans ?_)
  rw [hv]
  rfl

theorem crashes_load {slot : UInt8} (hv : slots[slot.toNat]? = some none)
    (h : chunk.Holds k (.op (.load slot) line :: code)) :
    Crashes chunk ⟨k, stack, slots⟩ (.of chunk k (.uninitializedSlot slot)) := by
  have happly : ActionM.apply chunk.size (.load slot) ⟨k + 2, stack, slots⟩ =
      .error (.uninitializedSlot slot) ⟨k + 2, stack, slots⟩ := by
    rw [apply_load, hv]
  exact crashes_of_apply h happly

theorem toInt_distance {d : Int} (h : FitsJump d) : (Int16.ofInt d).toInt = d :=
  Int16.toInt_ofInt_of_le h.1 (Int.lt_add_one_of_le h.2)

theorem apply_jump {size target : Nat} {d : Int} (hd : FitsJump d) (htarget : (k : Int) + d = target)
    (hle : target ≤ size) :
    ActionM.jump size (Int16.ofInt d) ⟨k, stack, slots⟩ = .ok () ⟨target, stack, slots⟩ := by
  show (if 0 ≤ (k : Int) + (Int16.ofInt d).toInt ∧ (k : Int) + (Int16.ofInt d).toInt ≤ size then
      modify fun m => { m with ip := ((k : Int) + (Int16.ofInt d).toInt).toNat }
    else throw (.invalidJump ((k : Int) + (Int16.ofInt d).toInt)) : ActionM Unit) ⟨k, stack, slots⟩ = _
  rw [toInt_distance hd, htarget, if_pos ⟨by omega, by omega⟩]
  rfl

theorem steps_jump {d : Int} (target : Nat) (h : chunk.Holds k (.jump .always d line :: code))
    (htarget : ((k + 3 : Nat) : Int) + d = target) (hle : target ≤ chunk.size) :
    Steps chunk ⟨k, stack, slots⟩ ⟨target, stack, slots⟩ := by
  have hd : FitsJump d := ((Fragment.fits_cons_jump ..).1 h.fits).1
  exact steps_of_apply h (apply_jump hd htarget hle)

theorem steps_jumpIfFalse_of_false {d : Int} (target : Nat)
    (h : chunk.Holds k (.jump .ifFalse d line :: code))
    (htarget : ((k + 3 : Nat) : Int) + d = target) (hle : target ≤ chunk.size) :
    Steps chunk ⟨k, .boolean false :: stack, slots⟩ ⟨target, .boolean false :: stack, slots⟩ := by
  have hd : FitsJump d := ((Fragment.fits_cons_jump ..).1 h.fits).1
  exact steps_of_apply h (apply_jump hd htarget hle)

theorem steps_jumpIfFalse_of_true {d : Int} (h : chunk.Holds k (.jump .ifFalse d line :: code)) :
    Steps chunk ⟨k, .boolean true :: stack, slots⟩ ⟨k + 3, .boolean true :: stack, slots⟩ :=
  steps_of_apply h rfl

end Instructions

end Machine

/-! ### Runs and evaluations -/

/-- The fault of a machine that corresponds to a failure. -/
def Failure.Causes (l : Layout) : Failure → FaultCause → Prop
  | .overflow op, cause => cause = .arithmeticOverflow op
  | .unset name, cause => some name ∈ l ∧ cause = .uninitializedSlot (l.slot name)
  | .stuck, _ => False

namespace Machine

/-- The machine `m` does what an evaluation says: it comes to a state that satisfies `post` for the
result, or it crashes at a `blamed` offset for the reason of the failure. Nothing is said about an
evaluation that gets stuck. -/
def Simulates {α : Type} (chunk : Chunk) (l : Layout) (blamed : Nat → Prop)
    (post : α → Machine → Prop) (m : Machine) : Except Failure α → Prop
  | .ok a => ∃ m', Steps chunk m m' ∧ post a m'
  | .error f => f ≠ .stuck →
    ∃ fault, Crashes chunk m fault ∧ f.Causes l fault.cause ∧ blamed fault.offset

namespace Simulates

variable {α β : Type} {chunk : Chunk} {l : Layout} {blamed : Nat → Prop} {post : α → Machine → Prop}
  {post' : β → Machine → Prop} {m m' : Machine} {r : Except Failure α}

theorem steps (h : Steps chunk m m') (h' : Simulates chunk l blamed post m' r) :
    Simulates chunk l blamed post m r := by
  cases r with
  | ok a =>
    obtain ⟨m'', hsteps, hpost⟩ := h'
    exact ⟨m'', h.trans hsteps, hpost⟩
  | error f =>
    intro hf
    obtain ⟨fault, ⟨m₁, m₂, hsteps, hfault⟩, hcause⟩ := h' hf
    exact ⟨fault, ⟨m₁, m₂, h.trans hsteps, hfault⟩, hcause⟩

theorem bind {f : α → Except Failure β} (h : Simulates chunk l blamed post m r)
    (hf : ∀ a m', post a m' → Simulates chunk l blamed post' m' (f a)) :
    Simulates chunk l blamed post' m (r >>= f) := by
  cases r with
  | ok a =>
    obtain ⟨m', hsteps, hpost⟩ := h
    exact steps hsteps (hf a m' hpost)
  | error e => exact h

theorem mono {post' : α → Machine → Prop} (h : Simulates chunk l blamed post m r)
    (hpost : ∀ a m', post a m' → post' a m') : Simulates chunk l blamed post' m r := by
  cases r with
  | ok a =>
    obtain ⟨m', hsteps, ha⟩ := h
    exact ⟨m', hsteps, hpost a m' ha⟩
  | error e => exact h

theorem ok {a : α} (h : post a m) : Simulates chunk l blamed post m (.ok a) :=
  ⟨m, Steps.refl m, h⟩

theorem stuck : Simulates chunk l blamed post m (.error .stuck) := fun h => absurd rfl h

end Simulates

end Machine

end BoundedLoop
