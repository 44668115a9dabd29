import BoundedLoop.Text.Grapheme
import BoundedLoop.Text.Place

/-!
# Backspaces in typed text

A line that comes from a keyboard may hold backspaces. Each takes back what was typed before it: one
grapheme cluster, which may be several characters. At the start of the line there is nothing to take
back.
-/

namespace BoundedLoop.Text

def backspace : Char := '\x08'

/-- A line that is being typed: its characters, last first, and how many bytes each cluster takes,
last first. One byte holds such a size, so of a cluster of 256 bytes or more the sizes tell only
the remainder. -/
structure Typed where
  chars : List Char := []
  sizes : List UInt8 := []
deriving DecidableEq

/-- Removes characters of `n` bytes from the front, and none that is only partly within them. -/
def dropBytes (n : Nat) : List Char → List Char
  | [] => []
  | c :: cs => if n < c.utf8Size then c :: cs else dropBytes (n - c.utf8Size) cs

namespace Typed

/-- Adds a cluster at the end of the line. -/
def push (t : Typed) (cluster : List Char) : Typed :=
  ⟨cluster.reverse ++ t.chars, UInt8.ofNat (bytes cluster) :: t.sizes⟩

/-- Takes the last cluster back. -/
def pop (t : Typed) : Typed :=
  match t.sizes with
  | [] => t
  | n :: sizes => ⟨dropBytes n.toNat t.chars, sizes⟩

/-- The line after one more cluster. A backspace never shares a cluster with another character. -/
def enter (t : Typed) (cluster : List Char) : Typed :=
  if cluster = [backspace] then t.pop else t.push cluster

end Typed

/-- What is left of a typed line when its backspaces have taken effect. -/
def erase (line : List Char) : List Char :=
  ((clusters line).foldl Typed.enter {}).chars.reverse

theorem chars_foldl_enter (t : Typed) :
    ∀ pieces : List (List Char), (∀ p ∈ pieces, p ≠ [backspace]) →
      (pieces.foldl Typed.enter t).chars = pieces.flatten.reverse ++ t.chars := by
  intro pieces
  induction pieces generalizing t with
  | nil => intro _; rfl
  | cons p pieces ih =>
    intro h
    rw [List.foldl_cons, ih _ fun q hq => h q (List.mem_cons_of_mem p hq)]
    simp [Typed.enter, Typed.push, h p List.mem_cons_self]

/-- A line without backspaces stays as it is. -/
theorem erase_eq_self {line : List Char} (h : backspace ∉ line) : erase line = line := by
  rw [erase, chars_foldl_enter, flatten_clusters]
  · simp
  · rintro p hp rfl
    apply h
    rw [← flatten_clusters line]
    exact List.mem_flatten.mpr ⟨[backspace], hp, List.mem_singleton_self _⟩

end BoundedLoop.Text
