/-!
# Columns of numbers

Numbers in a listing stand in columns: filled with zeros or blanks up to a width, which longer
numbers overflow.
-/

namespace BoundedLoop.Text

/-- The text `s` with `fill` put in front of it up to `width` characters. -/
def padLeft (fill : Char) (width : Nat) (s : String) : String :=
  String.ofList (List.replicate (width - s.length) fill) ++ s

/-- Decimal digits behind zeros, `width` characters in all. A minus sign counts as one of them. -/
def zeroPadded (width : Nat) (n : Int) : String :=
  if n < 0 then "-" ++ padLeft '0' (width - 1) (toString n.natAbs)
  else padLeft '0' width (toString n.natAbs)

/-- An integer with its sign, which zero and the positive numbers carry too. -/
def signed (n : Int) : String :=
  (if n < 0 then "-" else "+") ++ toString n.natAbs

/-- A byte as `0x` and two hexadecimal digits. -/
def hexByte (b : UInt8) : String :=
  "0x" ++ padLeft '0' 2 (String.ofList (Nat.toDigits 16 b.toNat))

end BoundedLoop.Text
