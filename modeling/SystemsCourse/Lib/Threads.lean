import Mathlib.Algebra.BigOperators.Group.Finset.Basic
import Mathlib.Algebra.Order.BigOperators.Group.Finset
import Mathlib.Data.Fintype.Card
import Mathlib.Algebra.Ring.Nat

/-!
# Counting threads

`count p` is the number of threads that meet `p`, and `total f` the sum of what `f` gives for each.  A
step of one thread changes them by what this thread added before and adds now (`count_change`,
`total_change`).
-/

namespace Threads
variable {Tid : Type} [Fintype Tid]

def count (p : Tid → Bool) : ℕ := (Finset.univ.filter fun t => p t = true).card

variable {p q : Tid → Bool}

theorem count_congr (h : ∀ t, q t = p t) : count q = count p := by
  unfold count
  simp only [h]

theorem count_eq_zero (h : ∀ t, p t = false) : count p = 0 := by
  unfold count
  rw [Finset.card_eq_zero, Finset.filter_eq_empty_iff]
  intro t _
  simp [h t]

theorem count_pos {t : Tid} (h : p t = true) : 0 < count p :=
  Finset.card_pos.mpr ⟨t, Finset.mem_filter.mpr ⟨Finset.mem_univ t, h⟩⟩

theorem count_le (h : ∀ t, p t = true → q t = true) : count p ≤ count q := by
  refine Finset.card_le_card ?_
  intro t ht
  obtain ⟨hu, hp⟩ := Finset.mem_filter.mp ht
  exact Finset.mem_filter.mpr ⟨hu, h t hp⟩

/-- the sum over the threads -/
def total (f : Tid → ℕ) : ℕ := ∑ t, f t

theorem total_le_add {f g : Tid → ℕ} {k : ℕ} (h : ∀ t, g t ≤ f t + k) :
    total g ≤ total f + Fintype.card Tid * k := by
  unfold total
  refine (Finset.sum_le_sum fun t _ => h t).trans ?_
  rw [Finset.sum_add_distrib, Finset.sum_const, Finset.card_univ]
  exact Nat.le_refl _

variable [DecidableEq Tid]

/-- the thread `t` and the others -/
theorem count_eq_erase (p : Tid → Bool) (t : Tid) :
    count p = ((Finset.univ.erase t).filter fun u => p u = true).card + (p t).toNat := by
  unfold count
  rw [← Finset.insert_erase (Finset.mem_univ t), Finset.filter_insert]
  cases hp : p t with
  | false => simp
  | true => simp

theorem count_change (t : Tid) (h : ∀ u, u ≠ t → q u = p u) :
    count q + (p t).toNat = count p + (q t).toNat := by
  have hp := count_eq_erase p t
  have hq := count_eq_erase q t
  have hrest : (Finset.univ.erase t).filter (fun u => q u = true)
      = (Finset.univ.erase t).filter fun u => p u = true := by
    refine Finset.filter_congr ?_
    intro u hu
    rw [h u (Finset.ne_of_mem_erase hu)]
  rw [hrest] at hq
  omega

/-- the state of one thread changes -/
theorem count_update {α : Type} (f : α → Bool) (s : Tid → α) (t : Tid) (v : α) :
    count (fun u => f (Function.update s t v u)) + (f (s t)).toNat
      = count (fun u => f (s u)) + (f v).toNat := by
  have h := count_change t (p := fun u => f (s u)) (q := fun u => f (Function.update s t v u)) (by
    intro u hu
    rw [Function.update_of_ne hu])
  rwa [Function.update_self] at h

theorem total_change {f g : Tid → ℕ} (t : Tid) (h : ∀ u, u ≠ t → g u = f u) :
    total g + f t = total f + g t := by
  have hf := Finset.add_sum_erase Finset.univ f (Finset.mem_univ t)
  have hg := Finset.add_sum_erase Finset.univ g (Finset.mem_univ t)
  have hrest : ∑ u ∈ Finset.univ.erase t, g u = ∑ u ∈ Finset.univ.erase t, f u :=
    Finset.sum_congr rfl fun u hu => h u (Finset.ne_of_mem_erase hu)
  unfold total
  omega

theorem total_update {α : Type} (f : α → ℕ) (s : Tid → α) (t : Tid) (v : α) :
    total (fun u => f (Function.update s t v u)) + f (s t) = total (fun u => f (s u)) + f v := by
  have h := total_change t (f := fun u => f (s u)) (g := fun u => f (Function.update s t v u)) (by
    intro u hu
    rw [Function.update_of_ne hu])
  rwa [Function.update_self] at h

end Threads
