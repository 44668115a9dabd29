/-!
# Big-endian bytes

Operands of several bytes are stored with the most significant byte first. `decode` and `encode`
are inverse on lists of `width` bytes and on numbers below `256 ^ width`.
-/

namespace BoundedLoop.BigEndian

/-- The number that a list of bytes spells in base 256. -/
def decode (bytes : List UInt8) : Nat :=
  bytes.foldl (fun n b => n * 256 + b.toNat) 0

/-- The last `width` digits of `n` in base 256. -/
def encode : Nat → Nat → List UInt8
  | 0, _ => []
  | width + 1, n => UInt8.ofNat (n / Nat.pow 256 width) :: encode width n

@[simp] theorem length_encode (width n : Nat) : (encode width n).length = width := by
  induction width with
  | zero => rfl
  | succ width ih => simp [encode, ih]

theorem foldl_encode (width n k : Nat) :
    (encode width n).foldl (fun m b => m * 256 + b.toNat) k =
      k * Nat.pow 256 width + n % Nat.pow 256 width := by
  simp only [Nat.pow_eq]
  induction width generalizing k with
  | zero => simp [encode, Nat.mod_one]
  | succ width ih =>
    have hsplit : n % 256 ^ (width + 1) =
        n / 256 ^ width % 256 * 256 ^ width + n % 256 ^ width := by
      rw [Nat.pow_succ, Nat.mod_mul, Nat.mul_comm (256 ^ width), Nat.add_comm]
    simp only [encode, List.foldl_cons, ih, UInt8.toNat_ofNat', hsplit, Nat.pow_eq]
    rw [Nat.add_mul, Nat.mul_assoc, ← Nat.pow_succ', Nat.add_assoc]

theorem decode_encode (width n : Nat) : decode (encode width n) = n % Nat.pow 256 width := by
  simp [decode, foldl_encode]

theorem decode_append_singleton (bytes : List UInt8) (b : UInt8) :
    decode (bytes ++ [b]) = decode bytes * 256 + b.toNat := by
  simp [decode]

end BoundedLoop.BigEndian
