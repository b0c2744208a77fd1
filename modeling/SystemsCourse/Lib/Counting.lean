import Mathlib.Data.List.Count

/-!
# Counting in lists

How `List.countP` changes when one place of the list or the predicate changes.
-/

namespace Counting

theorem toNat_eq_ite (b : Bool) : b.toNat = if b = true then 1 else 0 := by
  cases b <;> rfl

variable {α : Type} {l : List α} {i : ℕ} {a b : α}

theorem countP_set (p : α → Bool) (h : l[i]? = some a) :
    (l.set i b).countP p + (p a).toNat = l.countP p + (p b).toNat := by
  induction l generalizing i with
  | nil => cases h
  | cons c l ih =>
    cases i with
    | zero =>
      cases h
      rw [List.set_cons_zero, List.countP_cons, List.countP_cons, toNat_eq_ite, toNat_eq_ite]
      omega
    | succ i =>
      have := ih h
      rw [List.set_cons_succ, List.countP_cons, List.countP_cons]
      omega

theorem mem_set_of_ne {c : α} (hc : c ∈ l) (h : l[i]? = some a) (hne : c ≠ a) : c ∈ l.set i b := by
  obtain ⟨j, hj⟩ := List.mem_iff_getElem?.mp hc
  refine List.mem_iff_getElem?.mpr ⟨j, ?_⟩
  have hij : i ≠ j := by
    rintro rfl
    exact hne (Option.some.inj (hj.symm.trans h))
  rw [List.getElem?_set_ne hij]
  exact hj

/-- a predicate that becomes false for a member, and true for none -/
theorem countP_lt {p q : α → Bool} (ha : a ∈ l) (hp : p a = true) (hq : q a = false)
    (h : ∀ c, q c = true → p c = true) : l.countP q + 1 ≤ l.countP p := by
  obtain ⟨l₁, l₂, rfl⟩ := List.append_of_mem ha
  have h₁ := List.countP_mono_left (l := l₁) fun c _ => h c
  have h₂ := List.countP_mono_left (l := l₂) fun c _ => h c
  rw [List.countP_append, List.countP_append, List.countP_cons_of_pos hp,
    List.countP_cons_of_neg (by rw [hq]; exact Bool.noConfusion)]
  omega

end Counting
