/-!
# Decimal digits

The number that a row of decimal digits spells. Leading zeros do not count.
-/

namespace BoundedLoop.Text

def digitValue (c : Char) : Nat :=
  c.toNat - '0'.toNat

/-- The number that decimal digits spell. -/
def decimal (digits : List Char) : Nat :=
  digits.foldl (fun n d => n * 10 + digitValue d) 0

theorem decimal_zero_cons (digits : List Char) : decimal ('0' :: digits) = decimal digits := rfl

theorem decimal_append_singleton (digits : List Char) (d : Char) :
    decimal (digits ++ [d]) = decimal digits * 10 + digitValue d := by
  simp [decimal]

theorem decimal_zeros_append (n : Nat) (digits : List Char) :
    decimal (List.replicate n '0' ++ digits) = decimal digits := by
  induction n with
  | zero => rfl
  | succ n ih => rw [List.replicate_succ, List.cons_append, decimal_zero_cons, ih]

/-- The digits that a number is written with spell it. -/
theorem decimal_toDigits (n : Nat) : decimal (Nat.toDigits 10 n) = n := by
  have hfold : Nat.ofDigitChars 10 (Nat.toDigits 10 n) 0 = decimal (Nat.toDigits 10 n) := by
    simp only [Nat.ofDigitChars_eq_foldl, decimal, digitValue, Nat.mul_comm]
  rw [← hfold, Nat.ofDigitChars_ten_toDigits]

end BoundedLoop.Text
