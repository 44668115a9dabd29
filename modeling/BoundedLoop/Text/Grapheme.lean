import BoundedLoop.Text.GraphemeClass

/-!
# Grapheme clusters

A text falls into extended grapheme clusters, the pieces that the eye takes for one character
(`clusters`). The rules are those of Unicode text segmentation. Nearly all of them look at two
neighbours only; what else they ask about the characters before is kept as an `Opening`.
Nothing is lost: the clusters of a text, one after the other, are the text (`flatten_clusters`).
-/

namespace BoundedLoop.Text

/-- What the characters read so far allow to follow in the same cluster. -/
inductive Opening where
  | none
  /-- a pictograph with its marks, which a joiner may follow -/
  | pictograph
  /-- a pictograph and a joiner, which another pictograph may follow -/
  | joined
  /-- a consonant with its marks, which a linker may follow -/
  | consonant
  /-- a consonant and a linker, which another consonant may follow -/
  | linked
  /-- the first half of a flag -/
  | regional
deriving DecidableEq

/-- What is open behind one more character. -/
def Opening.after (o : Opening) : GraphemeClass → Opening
  | .pictograph => .pictograph
  | .consonant => .consonant
  | .regional => if o = .regional then .none else .regional
  | .mark =>
    match o with
    | .pictograph | .consonant | .linked => o
    | _ => .none
  | .linker =>
    match o with
    | .pictograph => .pictograph
    | .consonant | .linked => .linked
    | _ => .none
  | .nonJoiner => if o = .pictograph then .pictograph else .none
  | .joiner =>
    match o with
    | .pictograph => .joined
    | .consonant | .linked => o
    | _ => .none
  | _ => .none

/-- Whether a character of class `next` belongs to the cluster of the character in front of it,
which has class `last` and leaves `o` open. -/
def joins (last : GraphemeClass) (o : Opening) (next : GraphemeClass) : Bool :=
  match last, next with
  | .carriageReturn, .lineFeed => true
  | .carriageReturn, _ | .lineFeed, _ | .control, _ => false
  | _, .carriageReturn | _, .lineFeed | _, .control => false
  | .leading, .leading | .leading, .vowel => true
  | .leading, .openSyllable | .leading, .closedSyllable => true
  | .openSyllable, .vowel | .openSyllable, .trailing => true
  | .vowel, .vowel | .vowel, .trailing => true
  | .closedSyllable, .trailing | .trailing, .trailing => true
  | _, .mark | _, .linker | _, .nonJoiner | _, .joiner | _, .spacingMark => true
  | .prepend, _ => true
  | _, .consonant => o = .linked
  | _, .pictograph => o = .joined
  | _, .regional => o = .regional
  | _, _ => false

/-- The clusters of a text of which the start `begun`, backwards, has been read: it ends with a
character of class `last` and leaves `o` open. -/
def clustersFrom (begun : List Char) (last : GraphemeClass) (o : Opening) :
    List Char → List (List Char)
  | [] => [begun.reverse]
  | c :: cs =>
    let next := graphemeClass c
    if joins last o next then clustersFrom (c :: begun) next (o.after next) cs
    else begun.reverse :: clustersFrom [c] next (o.after next) cs

/-- The extended grapheme clusters of a text. -/
def clusters : List Char → List (List Char)
  | [] => []
  | c :: cs =>
    let first := graphemeClass c
    clustersFrom [c] first (Opening.none.after first) cs

theorem flatten_clustersFrom (cs : List Char) :
    ∀ begun last o, (clustersFrom begun last o cs).flatten = begun.reverse ++ cs := by
  induction cs with
  | nil => intro begun last o; simp [clustersFrom]
  | cons c cs ih =>
    intro begun last o
    rw [clustersFrom]
    split <;> simp [ih]

/-- The clusters of a text are all of it. -/
theorem flatten_clusters (cs : List Char) : (clusters cs).flatten = cs := by
  cases cs with
  | nil => rfl
  | cons c cs => simp [clusters, flatten_clustersFrom]

end BoundedLoop.Text
