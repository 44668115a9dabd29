/-!
# Values and their types

A program computes with 64-bit signed integers and the two truth values. Sums and products are
exact or fail: `exact64?` says which integers a number can hold.
-/

namespace BoundedLoop

/-- The type of a value. The compiler knows it for every expression. -/
inductive Ty where
  | number
  | boolean
deriving DecidableEq, Inhabited

/-- The word used for a type in messages. -/
def Ty.name : Ty → String
  | .number => "number"
  | .boolean => "boolean"

/-- What the stack and the slots of a running program hold. -/
inductive Value where
  | number (n : Int64)
  | boolean (b : Bool)
deriving DecidableEq, Inhabited

/-- The 64-bit integer equal to `x`, if there is one. -/
def exact64? (x : Int) : Option Int64 :=
  if Int64.minValue.toInt ≤ x ∧ x ≤ Int64.maxValue.toInt then some (Int64.ofInt x) else none

theorem exact64?_eq_some_iff {x : Int} {n : Int64} : exact64? x = some n ↔ n.toInt = x := by
  have hle := n.toInt_le
  have hge := n.le_toInt
  constructor
  · intro h
    simp only [exact64?] at h
    split at h
    · cases h
      rename_i hx
      exact Int64.toInt_ofInt_of_le hx.1 (Int.lt_add_one_of_le hx.2)
    · cases h
  · rintro rfl
    have hmin : Int64.minValue.toInt = -2 ^ 63 := by decide
    have hmax : Int64.maxValue.toInt = 2 ^ 63 - 1 := by decide
    simp only [exact64?, hmin, hmax, Int64.ofInt_toInt]
    rw [if_pos]
    omega

namespace Value

def ty : Value → Ty
  | number _ => .number
  | boolean _ => .boolean

def number? : Value → Option Int64
  | number n => some n
  | boolean _ => none

def boolean? : Value → Option Bool
  | number _ => none
  | boolean b => some b

/-- A value as a program spells it: decimal digits, `YES` or `NO`. -/
def text : Value → String
  | number n => toString n.toInt
  | boolean true => "YES"
  | boolean false => "NO"

@[simp] theorem ty_number (n : Int64) : (number n).ty = .number := rfl

@[simp] theorem ty_boolean (b : Bool) : (boolean b).ty = .boolean := rfl

end Value

end BoundedLoop
