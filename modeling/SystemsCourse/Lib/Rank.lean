import Mathlib.Data.List.Basic

/-!
# Ranks in ascending lists

The element at the place `r - 1` of an ascending list is the least one that has at least `r` elements up
to it, whether or not elements are repeated.
-/

set_option linter.unusedSectionVars false

namespace Rank
variable {α : Type} [LE α] [DecidableLE α] [Std.IsLinearPreorder α] {l : List α}

theorem getElem_le (h : l.Pairwise (· ≤ ·)) {i j : ℕ} (hij : i ≤ j) (hj : j < l.length) :
    l[i] ≤ l[j] := by
  rcases Nat.lt_or_eq_of_le hij with hlt | rfl
  · exact List.pairwise_iff_getElem.mp h i j (by omega) hj hlt
  · exact Std.le_refl _

theorem succ_le_countP (h : l.Pairwise (· ≤ ·)) {i : ℕ} (hi : i < l.length) :
    i + 1 ≤ l.countP (· ≤ l[i]) := by
  have hall : ∀ a ∈ l.take (i + 1), decide (a ≤ l[i]) = true := by
    intro a ha
    obtain ⟨j, hj, rfl⟩ := List.mem_take_iff_getElem.mp ha
    exact decide_eq_true (getElem_le h (by omega) hi)
  calc i + 1 = (l.take (i + 1)).length := by rw [List.length_take]; omega
    _ = (l.take (i + 1)).countP (· ≤ l[i]) := (List.countP_eq_length.mpr hall).symm
    _ ≤ l.countP (· ≤ l[i]) := (List.take_sublist _ _).countP_le

theorem countP_le_of_not_le (h : l.Pairwise (· ≤ ·)) {i : ℕ} (hi : i < l.length) {y : α}
    (hy : ¬ l[i] ≤ y) : l.countP (· ≤ y) ≤ i := by
  have hnone : (l.drop i).countP (· ≤ y) = 0 := by
    rw [List.countP_eq_zero]
    intro a ha
    obtain ⟨j, hj, rfl⟩ := List.mem_drop_iff_getElem.mp ha
    rw [decide_eq_true_iff]
    exact fun hle => hy (Std.le_trans (getElem_le h (by omega) (by omega)) hle)
  calc l.countP (· ≤ y) = (l.take i ++ l.drop i).countP (· ≤ y) := by rw [List.take_append_drop]
    _ = (l.take i).countP (· ≤ y) := by rw [List.countP_append, hnone, Nat.add_zero]
    _ ≤ (l.take i).length := List.countP_le_length
    _ ≤ i := List.length_take_le _ _

/-- **the least element of a rank** -/
theorem least_of_rank (h : l.Pairwise (· ≤ ·)) {r : ℕ} (h1 : 1 ≤ r) (hr : r ≤ l.length) :
    ∃ x, l[r - 1]? = some x ∧ x ∈ l ∧ r ≤ l.countP (· ≤ x) ∧
      ∀ y, r ≤ l.countP (· ≤ y) → x ≤ y := by
  have hi : r - 1 < l.length := by omega
  refine ⟨l[r - 1], List.getElem?_eq_getElem hi, List.getElem_mem hi, ?_, ?_⟩
  · have hcount := succ_le_countP h hi
    omega
  · intro y hy
    by_contra hnot
    have hcount := countP_le_of_not_le h hi hnot
    omega

end Rank
