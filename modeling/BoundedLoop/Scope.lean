import BoundedLoop.Value

/-!
# Variables in scope

A scope gives each declared name a slot and, from its first completed assignment on, a type. A
type once given never changes: `Scope.assign` refuses another one.
-/

namespace BoundedLoop

/-- A variable. It has no type, and cannot be read, until an assignment to it is complete. -/
structure Variable where
  ty : Option Ty := none
  slot : UInt8
deriving DecidableEq

/-- A value of one type is assigned to a variable of another. -/
structure TypeConflict where
  expected : Ty
  found : Ty
deriving DecidableEq

def TypeConflict.message (c : TypeConflict) : String :=
  "cannot assign '" ++ c.found.name ++ "' value to variable of type '" ++ c.expected.name ++ "'"

structure Scope where
  entries : List (String × Variable) := []
deriving DecidableEq, Inhabited

namespace Scope

/-- Why a type cannot be given to a name. -/
inductive AssignError where
  | undeclared
  | conflict (c : TypeConflict)
deriving DecidableEq

def size (s : Scope) : Nat := s.entries.length

def isEmpty (s : Scope) : Bool := s.entries.isEmpty

def find? (s : Scope) (name : String) : Option Variable :=
  s.entries.lookup name

/-- Enters `name` without a type, in place of what the name meant before. -/
def declare (s : Scope) (name : String) (slot : UInt8) : Scope :=
  ⟨(name, { slot }) :: s.entries.filter (·.1 != name)⟩

/-- Gives the type `ty` to a declared name. -/
def setType (s : Scope) (name : String) (ty : Ty) : Scope :=
  ⟨s.entries.map fun (n, v) => (n, if n = name then { v with ty := some ty } else v)⟩

/-- Records that `name` now holds a value of type `ty`. -/
def assign (s : Scope) (name : String) (ty : Ty) : Except AssignError Scope :=
  match s.find? name with
  | none => .error .undeclared
  | some v =>
    match v.ty with
    | none => .ok (s.setType name ty)
    | some expected => if expected = ty then .ok s else .error (.conflict ⟨expected, ty⟩)

/-- All variables, by slot. -/
def bySlot (s : Scope) : List (String × Variable) :=
  s.entries.mergeSort fun a b => a.2.slot ≤ b.2.slot

/-! ### What a name means afterwards -/

theorem lookup_filter_ne {name other : String} (h : other ≠ name)
    (entries : List (String × Variable)) :
    (entries.filter (·.1 != name)).lookup other = entries.lookup other := by
  induction entries with
  | nil => rfl
  | cons e entries ih =>
    obtain ⟨n, v⟩ := e
    by_cases hn : n = name
    · subst hn
      have ho : (other == n) = false := by simpa using h
      simp [ih, List.lookup_cons, ho]
    · simp [hn, List.lookup_cons, ih]

theorem find?_declare (s : Scope) (name other : String) (slot : UInt8) :
    (s.declare name slot).find? other = if other = name then some { slot } else s.find? other := by
  by_cases h : other = name
  · subst h
    simp [declare, find?]
  · have ho : (other == name) = false := by simpa using h
    simp [declare, find?, List.lookup_cons, ho, lookup_filter_ne h, h]

theorem find?_setType (s : Scope) (name other : String) (ty : Ty) :
    (s.setType name ty).find? other =
      (s.find? other).map fun v => if other = name then { v with ty := some ty } else v := by
  simp only [setType, find?]
  induction s.entries with
  | nil => rfl
  | cons e entries ih =>
    obtain ⟨n, v⟩ := e
    by_cases ho : other = n
    · subst ho
      by_cases hn : other = name <;> simp [hn]
    · have hb : (other == n) = false := by simpa using ho
      simp [List.lookup_cons, hb, ih]

end Scope

end BoundedLoop
