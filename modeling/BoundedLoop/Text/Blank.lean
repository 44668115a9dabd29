import BoundedLoop.Text.CharRanges
import BoundedLoop.Text.Place

/-!
# Blank characters

The characters with the Unicode property White_Space. They decide which lines of input are empty to
the eye, and which characters at the end of a text are passed over.
-/

namespace BoundedLoop.Text

def blankChars : CharRanges where
  ranges :=
    [(0x09, 0x0d), (0x20, 0x20), (0x85, 0x85), (0xa0, 0xa0), (0x1680, 0x1680), (0x2000, 0x200a),
      (0x2028, 0x2029), (0x202f, 0x202f), (0x205f, 0x205f), (0x3000, 0x3000)]

def isBlank (c : Char) : Bool :=
  blankChars.contains c

/-- Whether a text shows nothing. -/
def isBlankText (s : String) : Bool :=
  s.toList.all isBlank

/-- The bytes of the last character that is not blank. -/
def lastVisible? (s : String) : Option (Nat × Nat) :=
  match s.toList.reverse.dropWhile isBlank with
  | [] => none
  | c :: before =>
    let start := bytes before
    some (start, start + c.utf8Size)

end BoundedLoop.Text
