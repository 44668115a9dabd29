import BoundedLoop.Proofs.Static.Located

/-!
# Typed code

A `CodeTyping` says which types the stack holds at each offset, which type each slot has, and at
which offsets execution may arrive. `Instruction.Typed` is what one instruction asks of it: the
operands that it takes are there, behind it the stack is as the next instruction expects it, and so
it is where it jumps to.

`Machine.Typed.execute`: a machine that agrees with the typing of a chunk still does so behind any
instruction, and hence behind all of them (`Machine.Typed.steps`).
-/

namespace BoundedLoop

/-- What code relies on. -/
structure CodeTyping where
  /-- the types on the stack at an offset, topmost first -/
  stack : Nat → List Ty
  slot : Nat → Option Ty
  /-- where execution may arrive -/
  target : Nat → Prop

/-- A jump at `o` over `d` arrives with the stack that it finds. -/
def CodeTyping.Lands (T : CodeTyping) (o : Nat) (d : Int) : Prop :=
  ∃ t : Nat, ((o + 3 : Nat) : Int) + d = t ∧ T.target t ∧ T.stack t = T.stack o

/-- No jump keeps the distance -1 of a hole, and a jump on a condition leads forward. -/
def Branch.Typed (T : CodeTyping) (o : Nat) (d : Int) : Branch → Prop
  | always => d ≠ -1 ∧ T.Lands o d
  | ifFalse =>
    0 < d ∧ T.Lands o d ∧ T.stack (o + 3) = T.stack o ∧ ∃ rest, T.stack o = .boolean :: rest

def Instruction.Typed (T : CodeTyping) (o : Nat) : Instruction → Prop
  | add | multiply =>
    ∃ rest, T.stack o = .number :: .number :: rest ∧ T.stack (o + 1) = .number :: rest
  | greater | less =>
    ∃ rest, T.stack o = .number :: .number :: rest ∧ T.stack (o + 1) = .boolean :: rest
  | equal => ∃ ty rest, T.stack o = ty :: ty :: rest ∧ T.stack (o + 1) = .boolean :: rest
  | not => ∃ rest, T.stack o = .boolean :: rest ∧ T.stack (o + 1) = .boolean :: rest
  | push v => T.stack (o + 10) = v.ty :: T.stack o
  | pop => ∃ ty, T.stack o = ty :: T.stack (o + 1)
  | jump d => Branch.always.Typed T o d.toInt
  | jumpIfFalse d => Branch.ifFalse.Typed T o d.toInt
  | store slot => ∃ ty rest, T.slot slot.toNat = some ty ∧ T.stack o = ty :: rest ∧
      T.stack (o + 2) = ty :: rest
  | load slot => ∃ ty, T.slot slot.toNat = some ty ∧ T.stack (o + 2) = ty :: T.stack o

def Item.Typed (T : CodeTyping) (o : Nat) : Item → Prop
  | op i _ => i.Typed T o
  | jump branch d _ => branch.Typed T o d

theorem Item.Typed.instruction {T : CodeTyping} {o : Nat} {i : Item} (h : i.Typed T o)
    (hfits : i.Fits) : i.instruction.Typed T o := by
  cases i with
  | op i line => exact h
  | jump branch d line =>
    have hd : (Int16.ofInt d).toInt = d := Machine.toInt_distance hfits
    cases branch with
    | always =>
      show Branch.always.Typed T o (Int16.ofInt d).toInt
      rw [hd]
      exact h
    | ifFalse =>
      show Branch.ifFalse.Typed T o (Int16.ofInt d).toInt
      rw [hd]
      exact h

namespace Fragment

/-- Every instruction of code that begins at `k` is typed. -/
def Typed (T : CodeTyping) : Nat → Fragment → Prop
  | _, [] => True
  | k, i :: code => i.Typed T k ∧ Typed T (k + i.instruction.size) code

variable {T : CodeTyping} {k : Nat}

theorem typed_append {a b : Fragment} : Typed T k (a ++ b) ↔ Typed T k a ∧ Typed T (k + a.size) b := by
  induction a generalizing k with
  | nil => simp [Typed]
  | cons i a ih =>
    rw [List.cons_append, Typed, Typed, ih, size_cons, ← Nat.add_assoc, and_assoc]

theorem Typed.of_mem {code : Fragment} (h : Typed T k code) {o : Nat} {i : Item}
    (hi : (o, i) ∈ located k code) : i.Typed T o := by
  obtain ⟨a, b, rfl, rfl⟩ := mem_located_iff.1 hi
  exact (typed_append.1 h).2.1

end Fragment

/-! ### Typed chunks -/

/-- The typing fits the chunk: it has an instruction wherever execution may arrive, or its end. -/
structure CodeTyping.Fits (T : CodeTyping) (c : Chunk) : Prop where
  start : T.target 0 ∧ T.stack 0 = []
  decode : ∀ o, T.target o → o = c.size ∨
    ∃ i, c.decode o = .ok i ∧ i.Typed T o ∧ T.target (o + i.size)

theorem CodeTyping.fits_of_holds {T : CodeTyping} {c : Chunk} {code : Fragment}
    (hcode : c.Holds 0 code) (hend : c.size = code.size) (htyped : code.Typed T 0)
    (htarget : T.target = Fragment.Boundary 0 code) (hstart : T.stack 0 = []) : T.Fits c := by
  refine ⟨⟨?_, hstart⟩, fun o ho => ?_⟩
  · rw [htarget]
    exact ⟨[], code, rfl, rfl⟩
  · rw [htarget] at ho ⊢
    rcases Fragment.boundary_iff.1 ho with rfl | ⟨i, hi⟩
    · rw [hend, Nat.zero_add]
      exact .inl rfl
    · have hfits : i.Fits := hcode.fits i (Fragment.mem_of_mem_located hi)
      exact .inr ⟨i.instruction, hcode.decode_of_mem hi, (htyped.of_mem hi).instruction hfits,
        Fragment.boundary_next hi⟩

/-! ### Machines that agree with a typing -/

namespace Machine

/-- The stack and the slots of a machine hold what the typing says. -/
structure Typed (T : CodeTyping) (m : Machine) : Prop where
  target : T.target m.ip
  stack : m.stack.map Value.ty = T.stack m.ip
  slots : ∀ (j : Nat) (v : Value), m.slots[j]? = some (some v) → T.slot j = some v.ty

variable {T : CodeTyping} {chunk : Chunk} {k : Nat} {stack : List Value}
  {slots : Array (Option Value)} {m m' : Machine}

theorem exists_of_map_ty_cons {ty : Ty} {rest : List Ty} (h : stack.map Value.ty = ty :: rest) :
    ∃ v below, stack = v :: below ∧ v.ty = ty ∧ below.map Value.ty = rest := by
  cases stack with
  | nil => cases h
  | cons v below =>
    rw [List.map_cons, List.cons.injEq] at h
    exact ⟨v, below, rfl, h.1, h.2⟩

theorem exists_of_map_ty_number {rest : List Ty} (h : stack.map Value.ty = .number :: rest) :
    ∃ n below, stack = .number n :: below ∧ below.map Value.ty = rest := by
  obtain ⟨v, below, rfl, hty, hbelow⟩ := exists_of_map_ty_cons h
  cases v with
  | number n => exact ⟨n, below, rfl, hbelow⟩
  | boolean b => cases hty

theorem exists_of_map_ty_boolean {rest : List Ty} (h : stack.map Value.ty = .boolean :: rest) :
    ∃ b below, stack = .boolean b :: below ∧ below.map Value.ty = rest := by
  obtain ⟨v, below, rfl, hty, hbelow⟩ := exists_of_map_ty_cons h
  cases v with
  | number n => cases hty
  | boolean b => exact ⟨b, below, rfl, hbelow⟩

/-- A jump that does not fault is where it should be, and has changed nothing else. -/
theorem eq_of_jump {size t : Nat} {d : Int16} (ht : (k : Int) + d.toInt = t)
    (h : ActionM.jump size d ⟨k, stack, slots⟩ = .ok () m) : m = ⟨t, stack, slots⟩ := by
  have heq : ActionM.jump size d ⟨k, stack, slots⟩ =
      (if 0 ≤ (k : Int) + d.toInt ∧ (k : Int) + d.toInt ≤ size then
        modify fun m => { m with ip := ((k : Int) + d.toInt).toNat }
      else throw (.invalidJump ((k : Int) + d.toInt)) : ActionM Unit) ⟨k, stack, slots⟩ := rfl
  rw [heq, ht] at h
  split at h
  · cases h
    simp
  · cases h

theorem typed_of_numbers {op : Opcode} {f : Int → Int → Int} {rest : List Ty}
    (hslots : ∀ (j : Nat) (v : Value), slots[j]? = some (some v) → T.slot j = some v.ty)
    (hstack : stack.map Value.ty = .number :: .number :: rest) (htarget : T.target k)
    (hnext : T.stack k = .number :: rest)
    (h : ActionM.arithmetic op f ⟨k, stack, slots⟩ = .ok () m) : m.Typed T := by
  obtain ⟨r, above, rfl, habove⟩ := exists_of_map_ty_number hstack
  obtain ⟨l, below, rfl, hbelow⟩ := exists_of_map_ty_number habove
  rw [apply_arithmetic] at h
  split at h
  · cases h
    exact ⟨htarget, (congrArg (Ty.number :: ·) hbelow).trans hnext.symm, hslots⟩
  · cases h

/-- What an instruction leaves behind, if it does not fault, agrees with the typing. -/
theorem typed_of_apply {i : Instruction} (hi : i.Typed T k) (htarget : T.target (k + i.size))
    (hslots : ∀ (j : Nat) (v : Value), slots[j]? = some (some v) → T.slot j = some v.ty)
    (hstack : stack.map Value.ty = T.stack k)
    (h : ActionM.apply chunk.size i ⟨k + i.size, stack, slots⟩ = .ok () m) : m.Typed T := by
  cases i with
  | add | multiply =>
    obtain ⟨rest, hpre, hpost⟩ := hi
    exact typed_of_numbers hslots (hstack.trans hpre) htarget hpost h
  | greater | less =>
    obtain ⟨rest, hpre, hpost⟩ := hi
    obtain ⟨r, above, rfl, habove⟩ := exists_of_map_ty_number (hstack.trans hpre)
    obtain ⟨l, below, rfl, hbelow⟩ := exists_of_map_ty_number habove
    cases h
    exact ⟨htarget, (congrArg (Ty.boolean :: ·) hbelow).trans hpost.symm, hslots⟩
  | equal =>
    obtain ⟨ty, rest, hpre, hpost⟩ := hi
    obtain ⟨r, above, rfl, hr, habove⟩ := exists_of_map_ty_cons (hstack.trans hpre)
    obtain ⟨l, below, rfl, hl, hbelow⟩ := exists_of_map_ty_cons habove
    have heq : ActionM.apply chunk.size .equal ⟨k + 1, r :: l :: below, slots⟩ =
        (if l.ty = r.ty then ActionM.push (.boolean (l = r))
          else throw (.operandMismatch .equal l.ty r.ty) : ActionM Unit) ⟨k + 1, below, slots⟩ := rfl
    rw [if_pos (hl.trans hr.symm)] at heq
    cases heq.symm.trans h
    exact ⟨htarget, (congrArg (Ty.boolean :: ·) hbelow).trans hpost.symm, hslots⟩
  | not =>
    obtain ⟨rest, hpre, hpost⟩ := hi
    obtain ⟨b, below, rfl, hbelow⟩ := exists_of_map_ty_boolean (hstack.trans hpre)
    cases h
    exact ⟨htarget, (congrArg (Ty.boolean :: ·) hbelow).trans hpost.symm, hslots⟩
  | push v =>
    cases h
    exact ⟨htarget, (congrArg (v.ty :: ·) hstack).trans hi.symm, hslots⟩
  | pop =>
    obtain ⟨ty, hpre⟩ := hi
    obtain ⟨v, below, rfl, -, hbelow⟩ := exists_of_map_ty_cons (hstack.trans hpre)
    cases h
    exact ⟨htarget, hbelow, hslots⟩
  | jump d =>
    obtain ⟨-, t, ht, hlands, hpost⟩ := hi
    obtain rfl := eq_of_jump ht h
    exact ⟨hlands, hstack.trans hpost.symm, hslots⟩
  | jumpIfFalse d =>
    obtain ⟨-, ⟨t, ht, hlands, hpost⟩, hfall, rest, hpre⟩ := hi
    obtain ⟨b, below, rfl, -⟩ := exists_of_map_ty_boolean (hstack.trans hpre)
    cases b with
    | false =>
      obtain rfl := eq_of_jump ht h
      exact ⟨hlands, hstack.trans hpost.symm, hslots⟩
    | true =>
      cases h
      exact ⟨htarget, hstack.trans hfall.symm, hslots⟩
  | store slot =>
    obtain ⟨ty, rest, hslot, hpre, hpost⟩ := hi
    obtain ⟨v, below, rfl, hv, hbelow⟩ := exists_of_map_ty_cons (hstack.trans hpre)
    have heq : ActionM.apply chunk.size (.store slot) ⟨k + 2, v :: below, slots⟩ =
        (if slot.toNat < slots.size then
          modify fun m => { m with slots := m.slots.setIfInBounds slot.toNat (some v) }
        else throw (.invalidSlot slot slots.size) : ActionM Unit) ⟨k + 2, v :: below, slots⟩ := rfl
    have h := heq.symm.trans h
    split at h
    · cases h
      refine ⟨htarget, (hstack.trans hpre).trans hpost.symm, fun j w hw => ?_⟩
      by_cases hj : slot.toNat = j
      · subst hj
        rw [Array.getElem?_setIfInBounds_self_of_lt ‹_›] at hw
        cases hw
        rw [hslot, hv]
      · rw [Array.getElem?_setIfInBounds_ne hj] at hw
        exact hslots j w hw
    · cases h
  | load slot =>
    obtain ⟨ty, hslot, hpost⟩ := hi
    rw [apply_load] at h
    split at h
    · cases h
    · cases h
    · rename_i v hv
      cases h
      have hty : some ty = some v.ty := hslot.symm.trans (hslots _ v hv)
      cases hty
      exact ⟨htarget, (congrArg (v.ty :: ·) hstack).trans hpost.symm, hslots⟩

/-- One instruction of a typed chunk. -/
theorem Typed.execute (hT : T.Fits chunk) (hm : m.Typed T) (h : m.execute chunk = .ok () m') :
    m'.Typed T := by
  obtain ⟨ip, stack, slots⟩ := m
  rcases hT.decode ip hm.target with rfl | ⟨i, hdecode, hi, htarget⟩
  · have hfin : isFinished chunk ⟨chunk.size, stack, slots⟩ = true := by simp [isFinished]
    rw [execute_of_isFinished hfin] at h
    cases h
  · simp only [Machine.execute, hdecode] at h
    split at h
    · rename_i m₁ happly
      cases h
      exact typed_of_apply hi htarget hm.slots hm.stack happly
    · cases h

/-- All machines on the way of a typed chunk agree with its typing. -/
theorem Typed.steps (hT : T.Fits chunk) (hm : m.Typed T) (h : Steps chunk m m') : m'.Typed T := by
  induction h with
  | refl => exact hm
  | tail _ hstep ih => exact ih.execute hT hstep

theorem typed_ofChunk (hT : T.Fits chunk) : (Machine.ofChunk chunk).Typed T := by
  refine ⟨hT.start.1, hT.start.2.symm, fun j v hv => ?_⟩
  simp only [ofChunk, Array.getElem?_replicate] at hv
  split at hv <;> cases hv

end Machine

end BoundedLoop
