/-!
# Sets of characters

A set of characters is written as ranges of code points in ascending order. A search goes through
the ranges and ends at the first that starts beyond the character (`search`); as the ranges ascend,
no later one can hold it (`CharRanges.contains_eq_any`).
-/

namespace BoundedLoop.Text

/-- Whether ranges follow each other, none of them empty and none starting below `least`. -/
def ascendFrom (least : Nat) : List (Nat × Nat) → Bool
  | [] => true
  | (first, last) :: rest => least ≤ first && first ≤ last && ascendFrom (last + 1) rest

/-- Whether one of the ranges holds the code point `n`, if they ascend. -/
def search (n : Nat) : List (Nat × Nat) → Bool
  | [] => false
  | (first, last) :: rest => first ≤ n && (n ≤ last || search n rest)

/-- A set of characters, as ranges of code points. -/
structure CharRanges where
  ranges : List (Nat × Nat)
  ascending : ascendFrom 0 ranges = true := by decide +kernel

def CharRanges.contains (s : CharRanges) (c : Char) : Bool :=
  search c.toNat s.ranges

/-- Nothing below the start of ascending ranges is in one of them. -/
theorem search_eq_false {n least : Nat} (h : n < least) :
    ∀ rs, ascendFrom least rs = true → search n rs = false
  | [], _ => rfl
  | (first, last) :: rest, hrs => by
    simp only [ascendFrom, Bool.and_eq_true, decide_eq_true_eq] at hrs
    have : ¬first ≤ n := by omega
    simp [search, this]

theorem search_eq_any {n least : Nat} :
    ∀ rs, ascendFrom least rs = true →
      search n rs = rs.any fun (first, last) => first ≤ n && n ≤ last
  | [], _ => rfl
  | (first, last) :: rest, hrs => by
    simp only [ascendFrom, Bool.and_eq_true, decide_eq_true_eq] at hrs
    obtain ⟨⟨-, hle⟩, hrest⟩ := hrs
    rw [search, List.any_cons, ← search_eq_any rest hrest]
    by_cases hn : first ≤ n
    · simp [hn]
    · have : n < last + 1 := by omega
      simp [hn, search_eq_false this rest hrest]

/-- A character is in the set if it is in one of the ranges. -/
theorem CharRanges.contains_eq_any (s : CharRanges) (c : Char) :
    s.contains c = s.ranges.any fun (first, last) => first ≤ c.toNat && c.toNat ≤ last :=
  search_eq_any s.ranges s.ascending

end BoundedLoop.Text
