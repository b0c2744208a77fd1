import Mathlib.Data.List.Basic

/-!
# Stable order

`Stable key better l l'`: the list `l'` has the elements of `l` with the better keys first, and those
of one key in the order of `l`.  If `l` is in order of arrival, the head of `l'` is the element that
comes first by key and then by arrival (`Stable.head`).

* `Stable.tail`, `Stable.cons`  the head leaves, or is replaced;
* `Stable.concat`               a new element arrives;
* `Stable.filter`               elements leave from the middle.
-/

namespace StableOrder

section
variable {α κ : Type} [DecidableEq κ] (key : α → κ) (better : κ → κ → Prop)

structure Stable (l l' : List α) : Prop where
  sorted : l'.Pairwise fun x y => key x = key y ∨ better (key x) (key y)
  arrival : ∀ k, l'.filter (fun x => key x = k) = l.filter fun x => key x = k

variable {key better} {l l' : List α}

theorem Stable.nil : Stable key better [] [] := ⟨.nil, fun _ => rfl⟩

theorem Stable.mem_iff (h : Stable key better l l') (x : α) : x ∈ l' ↔ x ∈ l := by
  have hx := congrArg (x ∈ ·) (h.arrival (key x))
  simpa using hx

/-- the head is the first of the elements with the best key -/
theorem Stable.head {a : α} {r : List α} (h : Stable key better l (a :: r)) :
    ∃ A B, l = A ++ a :: B ∧ (∀ x ∈ A, key x ≠ key a ∧ better (key a) (key x)) ∧
      ∀ x ∈ B, key a = key x ∨ better (key a) (key x) := by
  have hall : ∀ x ∈ l, key a = key x ∨ better (key a) (key x) := by
    intro x hx
    rcases List.mem_cons.mp ((h.mem_iff x).mpr hx) with rfl | hx
    · exact .inl rfl
    · exact (List.pairwise_cons.mp h.sorted).1 x hx
  have hfirst := h.arrival (key a)
  rw [List.filter_cons_of_pos (by simp)] at hfirst
  obtain ⟨A, B, rfl, hA, -, -⟩ := List.filter_eq_cons_iff.mp hfirst.symm
  refine ⟨A, B, rfl, fun x hx => ?_, fun x hx => hall x (by simp [hx])⟩
  have hne : key x ≠ key a := by simpa using hA x hx
  exact ⟨hne, (hall x (by simp [hx])).resolve_left hne.symm⟩

theorem Stable.tail {a : α} {r A B : List α} (h : Stable key better (A ++ a :: B) (a :: r))
    (hA : ∀ x ∈ A, key x ≠ key a) : Stable key better (A ++ B) r := by
  refine ⟨(List.pairwise_cons.mp h.sorted).2, fun k => ?_⟩
  have hk := h.arrival k
  rw [List.filter_append, List.filter_cons, List.filter_cons] at hk
  rw [List.filter_append]
  by_cases hak : key a = k
  · subst hak
    have hnil : A.filter (fun x => key x = key a) = [] := by simpa using hA
    rw [hnil, List.nil_append] at hk ⊢
    simpa using hk
  · simpa [hak] using hk

theorem Stable.cons {a : α} {r A B : List α} (h : Stable key better (A ++ B) r)
    (hA : ∀ x ∈ A, key x ≠ key a) (hr : ∀ x ∈ r, key a = key x ∨ better (key a) (key x)) :
    Stable key better (A ++ a :: B) (a :: r) := by
  refine ⟨List.pairwise_cons.mpr ⟨hr, h.sorted⟩, fun k => ?_⟩
  have hk := h.arrival k
  rw [List.filter_append] at hk
  rw [List.filter_append, List.filter_cons, List.filter_cons]
  by_cases hak : key a = k
  · subst hak
    have hnil : A.filter (fun x => key x = key a) = [] := by simpa using hA
    rw [hnil, List.nil_append] at hk ⊢
    rw [hk]
  · simpa [hak] using hk

/-- a new element goes behind those of its key -/
theorem Stable.concat {o : α} {C D : List α} (h : Stable key better l (C ++ D))
    (hC : ∀ x ∈ C, key x = key o ∨ better (key x) (key o)) (hD : ∀ y ∈ D, better (key o) (key y))
    (hirrefl : ∀ k, ¬ better k k) : Stable key better (l ++ [o]) (C ++ o :: D) := by
  obtain ⟨hsortedC, hsortedD, hCD⟩ := List.pairwise_append.mp h.sorted
  refine ⟨List.pairwise_append.mpr ⟨hsortedC, List.pairwise_cons.mpr ⟨?_, hsortedD⟩, ?_⟩, fun k => ?_⟩
  · exact fun y hy => .inr (hD y hy)
  · intro x hx y hy
    rcases List.mem_cons.mp hy with rfl | hy
    · exact hC x hx
    · exact hCD x hx y hy
  · have hk := h.arrival k
    rw [List.filter_append] at hk
    rw [List.filter_append, List.filter_append, List.filter_cons, ← hk]
    by_cases hok : key o = k
    · subst hok
      have hnil : D.filter (fun x => key x = key o) = [] := by
        simp only [List.filter_eq_nil_iff, decide_eq_true_eq]
        intro y hy e
        have hlt := hD y hy
        rw [e] at hlt
        exact hirrefl _ hlt
      simp [hnil]
    · simp [hok]

theorem Stable.filter (h : Stable key better l l') (p : α → Bool) :
    Stable key better (l.filter p) (l'.filter p) := by
  refine ⟨h.sorted.filter p, fun k => ?_⟩
  rw [List.filter_comm, h.arrival k, List.filter_comm]

end

end StableOrder
