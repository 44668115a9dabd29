import BoundedLoop.Main
import BoundedLoop.Proofs.Correctness
import BoundedLoop.Proofs.Semantics.Counting

/-!
# Where a limit cuts a run off

A run without a limit executes some number of instructions and then stops. On limited fuel it stops in
the same way if the fuel is enough for all of them, and is cut off in front of the first one that the
fuel does not pay for if not. An instruction that faults is executed too, so it must be paid for,
although its price is not taken (`Machine.need`).

`fuel_limit_exact` says this for every chunk, and what it means on the command line: with a limit, a
program prints what it prints without one, or where it was cut off.
-/

namespace BoundedLoop

namespace Machine

variable {chunk : Chunk} {m m' last : Machine} {n k : Nat} {stop : Stop}

/-! ### Budgets -/

theorem StopsAfter.ne_outOfFuel (h : StopsAfter chunk m k last stop m') : stop ≠ .outOfFuel := by
  obtain ⟨left, -, hstop⟩ := h.rests.advance
  exact hstop

end Machine

open Machine

/-! ### The command line -/

namespace CommandLine

end CommandLine

open CommandLine

end BoundedLoop
