import Mathlib.Algebra.Ring.Nat
import Mathlib.Logic.Function.Iterate

/-!
# Xor-shift stages

The maps `x ↦ x ^ (x << k)` and `x ↦ x ^ (x >> k)` on words of `w` bits.

Twice the stage of `k` is the stage of `2 k`, since the two middle terms cancel; and a stage that shifts
by `w` or more does nothing.  So a stage is undone by repeating it often enough, and is a bijection.
-/

namespace XorShift
variable {w : ℕ}

def left (k : ℕ) (x : BitVec w) : BitVec w := x ^^^ x <<< k

def right (k : ℕ) (x : BitVec w) : BitVec w := x ^^^ x >>> k

theorem left_left (k : ℕ) (x : BitVec w) : left k (left k x) = left (2 * k) x := by
  unfold left
  rw [BitVec.shiftLeft_xor_distrib, ← BitVec.shiftLeft_add, ← Nat.two_mul, BitVec.xor_assoc,
    ← BitVec.xor_assoc (x <<< k), BitVec.xor_self, BitVec.zero_xor]

theorem right_right (k : ℕ) (x : BitVec w) : right k (right k x) = right (2 * k) x := by
  unfold right
  rw [BitVec.ushiftRight_xor_distrib, ← BitVec.shiftRight_add, ← Nat.two_mul, BitVec.xor_assoc,
    ← BitVec.xor_assoc (x >>> k), BitVec.xor_self, BitVec.zero_xor]

theorem left_of_le {k : ℕ} (h : w ≤ k) (x : BitVec w) : left k x = x := by
  unfold left
  rw [BitVec.shiftLeft_eq_zero h, BitVec.xor_zero]

theorem right_of_le {k : ℕ} (h : w ≤ k) (x : BitVec w) : right k x = x := by
  unfold right
  rw [BitVec.ushiftRight_eq_zero h, BitVec.xor_zero]

/-- maps of which the stage for `2 k` is twice the stage for `k` -/
theorem iterate_stage {α : Type} {stage : ℕ → α → α} (h : ∀ k x, stage k (stage k x) = stage (2 * k) x)
    (k m : ℕ) : (stage k)^[2^m] = stage (2^m * k) := by
  induction m generalizing k with
  | zero => rw [pow_zero, Nat.one_mul, Function.iterate_one]
  | succ m ih =>
    have htwice : (stage k)^[2] = stage (2 * k) := funext (h k)
    rw [pow_succ', Function.iterate_mul, htwice, ih, ← Nat.mul_assoc, Nat.mul_comm (2^m)]

theorem bijective_of_iterate {α : Type} {f : α → α} {n : ℕ} (h : f^[n + 1] = id) :
    Function.Bijective f := by
  constructor
  · refine Function.Injective.of_comp (f := f^[n]) ?_
    rw [← Function.iterate_succ, h]
    exact Function.injective_id
  · refine Function.Surjective.of_comp (g := f^[n]) ?_
    rw [← Function.iterate_succ', h]
    exact Function.surjective_id

theorem bijective_stage {stage : ℕ → BitVec w → BitVec w}
    (htwice : ∀ k x, stage k (stage k x) = stage (2 * k) x) (hle : ∀ {k}, w ≤ k → ∀ x, stage k x = x)
    {k : ℕ} (hk : 0 < k) : Function.Bijective (stage k) := by
  have hw : w ≤ 2^w * k := Nat.le_trans (Nat.le_of_lt Nat.lt_two_pow_self) (Nat.le_mul_of_pos_right _ hk)
  obtain ⟨n, hn⟩ := Nat.exists_eq_succ_of_ne_zero (Nat.ne_of_gt (Nat.two_pow_pos w))
  refine bijective_of_iterate (n := n) ?_
  rw [← Nat.succ_eq_add_one, ← hn, iterate_stage htwice]
  exact funext (hle hw)

theorem left_bijective {k : ℕ} (hk : 0 < k) : Function.Bijective (left (w := w) k) :=
  bijective_stage left_left left_of_le hk

theorem right_bijective {k : ℕ} (hk : 0 < k) : Function.Bijective (right (w := w) k) :=
  bijective_stage right_right right_of_le hk

end XorShift
