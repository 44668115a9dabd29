import BoundedLoop.Proofs.Portions
import BoundedLoop.Proofs.Semantics.Does

/-!
# Machines without negative numbers

Sums and products of numbers that are not negative are not negative either, as they are exact, and no
other instruction but a push brings numbers in. So a machine never holds a negative number if none is
pushed (`Machine.nonNegative_of_steps`, `Machine.Rests.nonNegative`).
-/

namespace BoundedLoop

def Value.NonNegative : Value → Prop
  | number n => 0 ≤ n.toInt
  | boolean _ => True

instance : DecidablePred Value.NonNegative
  | .number n => inferInstanceAs (Decidable (0 ≤ n.toInt))
  | .boolean _ => inferInstanceAs (Decidable True)

namespace Machine

/-- There is no negative number on the stack or in a slot. -/
structure NonNegative (m : Machine) : Prop where
  stack : ∀ v ∈ m.stack, v.NonNegative
  slots : ∀ (j : Nat) (v : Value), m.slots[j]? = some (some v) → v.NonNegative

variable {chunk : Chunk} {m m' : Machine} {i : Instruction} {k k' : Nat} {v : Value}
  {stack stack' rest : List Value} {slots : Array (Option Value)}

namespace NonNegative

theorem of_stack (h : NonNegative ⟨k, stack, slots⟩) (hstack : ∀ v ∈ stack', v.NonNegative) :
    NonNegative ⟨k', stack', slots⟩ :=
  ⟨hstack, h.slots⟩

theorem drop (taken : List Value) (h : NonNegative ⟨k, taken ++ rest, slots⟩) :
    NonNegative ⟨k', rest, slots⟩ :=
  h.of_stack fun v hv => h.stack v (List.mem_append_right taken hv)

theorem push (h : NonNegative ⟨k, stack, slots⟩) (hv : v.NonNegative) : NonNegative ⟨k', v :: stack, slots⟩ :=
  h.of_stack (List.forall_mem_cons.2 ⟨hv, h.stack⟩)

theorem numbers {l r : Int64} (h : NonNegative ⟨k, .number r :: .number l :: rest, slots⟩) :
    0 ≤ l.toInt ∧ 0 ≤ r.toInt :=
  ⟨h.stack (.number l) (List.mem_cons_of_mem _ List.mem_cons_self), h.stack (.number r) List.mem_cons_self⟩

theorem store (h : NonNegative ⟨k, v :: rest, slots⟩) (j : Nat) :
    NonNegative ⟨k, v :: rest, slots.setIfInBounds j (some v)⟩ := by
  refine ⟨h.stack, fun j' v' hv' => ?_⟩
  replace hv' : (slots.setIfInBounds j (some v))[j']? = some (some v') := hv'
  rw [Array.getElem?_setIfInBounds] at hv'
  split at hv'
  · split at hv'
    · cases hv'
      exact h.stack v List.mem_cons_self
    · cases hv'
  · exact h.slots j' v' hv'

end NonNegative

theorem nonNegative_ofChunk (chunk : Chunk) : (ofChunk chunk).NonNegative := by
  refine ⟨nofun, fun j v hv => ?_⟩
  replace hv : (Array.replicate chunk.slotCount none)[j]? = some (some v) := hv
  rw [Array.getElem?_replicate] at hv
  split at hv <;> cases hv

/-- An instruction makes no negative number, if it does not push one. -/
theorem nonNegative_of_does (h : i.Does m m') (hpush : ∀ v, i = .push v → v.NonNegative)
    (hm : m.NonNegative) : m'.NonNegative := by
  cases h with
  | @add k rest slots l r n hn =>
    obtain ⟨hl, hr⟩ := hm.numbers
    refine (hm.drop [.number r, .number l]).push (k := k) ?_
    show 0 ≤ n.toInt
    rw [hn]
    exact Int.add_nonneg hl hr
  | @multiply k rest slots l r n hn =>
    obtain ⟨hl, hr⟩ := hm.numbers
    refine (hm.drop [.number r, .number l]).push (k := k) ?_
    show 0 ≤ n.toInt
    rw [hn]
    exact Int.mul_nonneg hl hr
  | @greater k rest slots l r | @less k rest slots l r =>
    exact (hm.drop [.number r, .number l]).push (k := k) trivial
  | @equal k rest slots l r => exact (hm.drop [r, l]).push (k := k) trivial
  | @not k rest slots b => exact (hm.drop [.boolean b]).push (k := k) trivial
  | push v => exact hm.push (hpush v rfl)
  | pop v => exact hm.drop [v]
  | jump _ | stay | leave _ => exact hm.of_stack hm.stack
  | store v _ => exact hm.store _
  | load hv => exact hm.push (hm.slots _ _ hv)

/-- A machine that is run from its start holds no negative number, if none is pushed. -/
theorem nonNegative_of_steps
    (hpush : ∀ m, Steps chunk (.ofChunk chunk) m → ∀ v, chunk.decode m.ip = .ok (.push v) → v.NonNegative)
    (h : Steps chunk (.ofChunk chunk) m) : m.NonNegative := by
  induction h with
  | refl => exact nonNegative_ofChunk chunk
  | tail hsteps hstep ih =>
    obtain ⟨i, hdecode, hdoes⟩ := exists_does_of_execute hstep
    refine nonNegative_of_does hdoes ?_ (ih.of_stack ih.stack)
    rintro v rfl
    exact hpush _ hsteps v hdecode

/-- Neither does it when it comes to rest, be it by a fault. -/
theorem Rests.nonNegative {stop : Stop} (h : Rests chunk m stop m') (hm : m.NonNegative) :
    m'.NonNegative := by
  cases h with
  | finished => exact hm
  | faults _ hfault =>
    have hexecutes := executes chunk m
    rw [hfault] at hexecutes
    cases hexecutes with
    | undecoded => exact hm
    | faults _ _ hdrops =>
      obtain ⟨taken, htaken, -⟩ := hdrops.stack
      refine ⟨fun v hv => hm.stack v ?_, ?_⟩
      · exact htaken ▸ List.mem_append_right taken hv
      · rw [hdrops.slots]
        exact hm.slots

/-- What is given as the result is not negative. -/
theorem Rests.nonNegative_output (h : Rests chunk m (.output v) m') (hm : m.NonNegative) : v.NonNegative := by
  generalize hstop : Stop.output v = stop at h
  cases h with
  | finished =>
    unfold result at hstop
    split at hstop
    · rename_i w hw
      cases hstop
      exact hm.slots _ _ hw
    · cases hstop
  | faults => cases hstop

end Machine

end BoundedLoop
