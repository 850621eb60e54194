import Hop.Lib.Text

/-!
# Numbers in bytes

A number in a fixed count of bytes, the lowest byte first (`leBytes`, `ofLe`) or the highest
(`beBytes`, `ofBe`).
-/

namespace Hop

/-- A number in so many bytes, the lowest first; what does not fit is cut off. -/
def leBytes : ℕ → ℕ → Bytes
  | 0, _ => []
  | k + 1, n => UInt8.ofNat n :: leBytes k (n / 256)

/-- The number that bytes say, the lowest first. -/
def ofLe : Bytes → ℕ
  | [] => 0
  | b :: bs => b.toNat + 256 * ofLe bs

@[simp] theorem leBytes_length (k n : ℕ) : (leBytes k n).length = k := by
  induction k generalizing n with
  | zero => rfl
  | succ k ih => rw [leBytes, List.length_cons, ih]

theorem ofLe_leBytes (k n : ℕ) : ofLe (leBytes k n) = n % 256 ^ k := by
  induction k generalizing n with
  | zero => rw [leBytes, ofLe, pow_zero, Nat.mod_one]
  | succ k ih =>
    have hlow : (UInt8.ofNat n).toNat = n % 256 := UInt8.toNat_ofNat'
    rw [leBytes, ofLe, ih, hlow, pow_succ, Nat.mul_comm (256 ^ k), Nat.mod_mul]

theorem ofLe_leBytes_of_lt {k n : ℕ} (h : n < 256 ^ k) : ofLe (leBytes k n) = n := by
  rw [ofLe_leBytes, Nat.mod_eq_of_lt h]

theorem ofLe_lt (bs : Bytes) : ofLe bs < 256 ^ bs.length := by
  induction bs with
  | nil => exact Nat.one_pos
  | cons b bs ih =>
    have hb : b.toNat < 256 := b.toNat_lt
    rw [ofLe, List.length_cons, pow_succ]
    omega

/-- A number in so many bytes, the highest first. -/
def beBytes (k n : ℕ) : Bytes := (leBytes k n).reverse

/-- The number that bytes say, the highest first. -/
def ofBe (b : Bytes) : ℕ := ofLe b.reverse

@[simp] theorem beBytes_length (k n : ℕ) : (beBytes k n).length = k := by
  rw [beBytes, List.length_reverse, leBytes_length]

theorem ofBe_beBytes_of_lt {k n : ℕ} (h : n < 256 ^ k) : ofBe (beBytes k n) = n := by
  rw [ofBe, beBytes, List.reverse_reverse, ofLe_leBytes_of_lt h]

end Hop
