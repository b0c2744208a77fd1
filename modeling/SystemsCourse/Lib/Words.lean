import Mathlib.Algebra.Ring.Int.Defs
import Mathlib.Algebra.Ring.Nat

/-!
# Words

64-bit words as numbers, where the operations do not wrap around.
-/

namespace Words
variable {a b : UInt64}

theorem toNat_add_of_lt (h : a.toNat + b.toNat < 2^64) : (a + b).toNat = a.toNat + b.toNat := by
  rw [UInt64.toNat_add, Nat.mod_eq_of_lt h]

theorem toNat_mul_of_lt (h : a.toNat * b.toNat < 2^64) : (a * b).toNat = a.toNat * b.toNat := by
  rw [UInt64.toNat_mul, Nat.mod_eq_of_lt h]

theorem toNat_succ_of_lt (h : a.toNat + 1 < 2^64) : (a + 1).toNat = a.toNat + 1 :=
  toNat_add_of_lt h

theorem toInt_toInt64 (h : a.toNat < 2^63) : a.toInt64.toInt = a.toNat := by
  show a.toBitVec.toInt = _
  rw [BitVec.toInt_eq_toNat_of_lt]
  · rfl
  · show 2 * a.toNat < 2^64
    omega

/-- a signed word that is not negative -/
theorem toNat_toUInt64 {n : Int64} (h : 0 ≤ n.toInt) : (n.toUInt64.toNat : ℤ) = n.toInt := by
  rw [Int64.toNat_toUInt64_of_le (Int64.le_iff_toInt_le.mpr h)]
  exact Int.toNat_of_nonneg h

end Words
