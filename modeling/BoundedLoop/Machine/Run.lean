import BoundedLoop.Machine.Step
import BoundedLoop.Machine.Fuel

/-!
# Running

A machine runs until its code ends, its budget is spent or an instruction faults. At the end of the
code the result is what `OUTPUT` holds. Running without a limit means to go on in slices until the
machine stops by itself, as `run` does.
-/

namespace BoundedLoop

/-- How a run comes to rest. -/
inductive Stop where
  | output (v : Value)
  | outOfFuel
  | fault (f : Fault)
deriving DecidableEq

instance : Inhabited Stop := ⟨.outOfFuel⟩

namespace Machine

def isFinished (chunk : Chunk) (m : Machine) : Bool :=
  chunk.size ≤ m.ip

/-- What a finished machine gives. -/
def result (chunk : Chunk) (m : Machine) : Stop :=
  match m.slots[Chunk.outputSlot.toNat]? with
  | some (some v) => .output v
  | _ => .fault (.of chunk chunk.size (.uninitializedSlot Chunk.outputSlot))

/-- Executes at most `budget` instructions, and gives also what is left of the budget. -/
def advance (chunk : Chunk) : Nat → Machine → Stop × Nat × Machine
  | 0, m => if m.isFinished chunk then (m.result chunk, 0, m) else (.outOfFuel, 0, m)
  | budget + 1, m =>
    if m.isFinished chunk then (m.result chunk, budget + 1, m)
    else
      match m.execute chunk with
      | .ok _ m => advance chunk budget m
      | .error f m => (.fault f, budget + 1, m)

/-- A run that is cut short goes on as if it had not been. -/
theorem advance_add {chunk : Chunk} {n left : Nat} {m m' : Machine}
    (h : advance chunk n m = (.outOfFuel, left, m')) (k : Nat) :
    left = 0 ∧ advance chunk (n + k) m = advance chunk k m' := by
  induction n generalizing m with
  | zero =>
    simp only [advance] at h
    split at h
    · unfold result at h
      split at h <;> cases h
    · cases h
      exact ⟨rfl, by rw [Nat.zero_add]⟩
  | succ n ih =>
    simp only [advance] at h
    split at h
    · unfold result at h
      split at h <;> cases h
    · rename_i hfin
      split at h
      · rename_i m₁ hstep
        obtain ⟨hleft, hrun⟩ := ih h
        refine ⟨hleft, ?_⟩
        rw [Nat.succ_add, ← hrun, advance, if_neg hfin, hstep]
      · cases h

/-- Runs on the given fuel, and gives also the fuel that is left. An instruction that faults costs
nothing. -/
def step (chunk : Chunk) (fuel : Fuel) (m : Machine) : Stop × Fuel × Machine :=
  let (stop, left, m) := advance chunk fuel.budget m
  (stop, fuel.consume (Int32.ofIntClamp (fuel.budget - left)), m)

/-- The fuel of one slice of a run without a limit. -/
def sliceFuel : Fuel := ⟨65536⟩

/-- One slice of a run without a limit. -/
def slice (chunk : Chunk) (m : Machine) : Stop × Machine :=
  let (stop, _, m) := step chunk sliceFuel m
  (stop, m)

/-- Goes on in slices until the machine stops by itself. There is no result if it never does. -/
def run (chunk : Chunk) (m : Machine) : Option (Stop × Machine) :=
  match slice chunk m with
  | (.outOfFuel, m) => m |>.run chunk
  | ended => some ended
partial_fixpoint

end Machine

end BoundedLoop
