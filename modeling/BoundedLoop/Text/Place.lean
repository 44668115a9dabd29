/-!
# Places in a text

A place is a byte offset into the UTF-8 text together with its line and column, both counted from
one, columns in characters. `Place.after` moves a place over the characters that follow it.

An arbitrary offset is looked up in a `LineIndex`: its line is the last that begins at the offset or
before it, and its column is counted from there.
-/

namespace BoundedLoop

/-- The bytes from `start` up to but not including `stop`. -/
structure Span where
  start : Nat
  stop : Nat
deriving DecidableEq, Inhabited

/-- A place that a message can point at: some bytes, and the line and column of the first. -/
structure Site where
  span : Span
  line : Nat
  column : Nat
deriving DecidableEq, Inhabited

namespace Text

/-- How many bytes characters take. -/
def bytes : List Char → Nat
  | [] => 0
  | c :: cs => c.utf8Size + bytes cs

structure Place where
  offset : Nat := 0
  line : Nat := 1
  column : Nat := 1
deriving DecidableEq, Inhabited

namespace Place

/-- The place behind the character `c`. -/
def advance (p : Place) (c : Char) : Place :=
  let offset := p.offset + c.utf8Size
  if c = '\n' then ⟨offset, p.line + 1, 1⟩ else ⟨offset, p.line, p.column + 1⟩

/-- The place behind the characters `cs`. -/
def after (p : Place) (cs : List Char) : Place :=
  cs.foldl advance p

@[simp] theorem after_nil (p : Place) : p.after [] = p := rfl

@[simp] theorem after_cons (p : Place) (c : Char) (cs : List Char) :
    p.after (c :: cs) = (p.advance c).after cs := rfl

theorem after_append (p : Place) (cs ds : List Char) :
    p.after (cs ++ ds) = (p.after cs).after ds := by
  simp [after]

/-- The site of the characters `cs` that begin at `p`. -/
def site (p : Place) (cs : List Char) : Site :=
  ⟨⟨p.offset, (p.after cs).offset⟩, p.line, p.column⟩

end Place

/-! ### Looking up an offset -/

/-- The offsets behind the line feeds among the characters `cs`, the first of which is at `offset`. -/
def startsBehind (offset : Nat) : List Char → List Nat
  | [] => []
  | c :: cs =>
    let starts := startsBehind (offset + c.utf8Size) cs
    if c = '\n' then (offset + 1) :: starts else starts

/-- Characters cut in two behind their first `n` bytes, unless a character lies across the cut. -/
def splitBytes? : Nat → List Char → Option (List Char × List Char)
  | 0, cs => some ([], cs)
  | _ + 1, [] => none
  | n + 1, c :: cs =>
    if c.utf8Size ≤ n + 1 then
      (splitBytes? (n + 1 - c.utf8Size) cs).map fun (before, behind) => (c :: before, behind)
    else none

/-- The characters from one offset to another, if both are between characters and in this order. -/
def slice? (cs : List Char) (start stop : Nat) : Option (List Char) :=
  if start ≤ stop then do
    let halves ← splitBytes? start cs
    let halves ← splitBytes? (stop - start) halves.2
    return halves.1
  else none

/-- The first index from `lo` on and below `hi` at which `p` does not hold, or else `hi`, found by
halving. All numbers at which `p` holds stand in front of those at which it does not. -/
def partitionPoint (p : Nat → Bool) (numbers : Array Nat) (lo hi : Nat) : Nat :=
  if lo < hi then
    let middle := lo + (hi - lo) / 2
    if p (numbers.getD middle 0) then partitionPoint p numbers (middle + 1) hi
    else partitionPoint p numbers lo middle
  else lo
termination_by hi - lo

/-- A text and the offsets at which its lines begin. -/
structure LineIndex where
  source : String
  starts : Array Nat

namespace LineIndex

def ofText (source : String) : LineIndex :=
  ⟨source, (0 :: startsBehind 0 source.toList).toArray⟩

/-- Line and column of a byte offset. Inside a character and behind the end of the text the column is
1. -/
def position (index : LineIndex) (offset : Nat) : Nat × Nat :=
  let line := partitionPoint (· ≤ offset) index.starts 0 index.starts.size
  let start := index.starts.getD (line - 1) 0
  let column := (slice? index.source.toList start offset).elim 0 List.length
  (line, column + 1)

end LineIndex

/-- Line and column of a byte offset. -/
def position (source : String) (offset : Nat) : Nat × Nat :=
  (LineIndex.ofText source).position offset

end Text

end BoundedLoop
