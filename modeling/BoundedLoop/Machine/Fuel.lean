/-!
# Fuel

A budget of instructions, kept in a signed 32-bit word. Adding and taking away stop at the ends of
the word's range.
-/

namespace BoundedLoop

structure Fuel where
  remaining : Int32
deriving DecidableEq, Inhabited

namespace Fuel

/-- Adds `amount`, but never beyond `limit`. -/
def refill (f : Fuel) (amount limit : Int32) : Fuel :=
  let sum := Int32.ofIntClamp (f.remaining.toInt + amount.toInt)
  ⟨if sum ≤ limit then sum else limit⟩

/-- Takes `amount` away. -/
def consume (f : Fuel) (amount : Int32) : Fuel :=
  ⟨Int32.ofIntClamp (f.remaining.toInt - amount.toInt)⟩

/-- Whether one more instruction may be executed. -/
def isPositive (f : Fuel) : Bool :=
  0 < f.remaining

/-- How many instructions may be executed. -/
def budget (f : Fuel) : Nat :=
  f.remaining.toInt.toNat

end Fuel

end BoundedLoop
