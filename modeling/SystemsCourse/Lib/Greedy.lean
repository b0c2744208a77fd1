import Mathlib.Algebra.Ring.Nat
import Mathlib.Data.List.Basic
import Mathlib.Algebra.Order.BigOperators.Group.List

/-!
# Greedy consumption of a list

A demand `d : ℕ` is met from the items of a list in order; `qty a` is what the item `a` can give,
and `reduce a n` is `a` after it gave `n`.

* `taken d l`   which items give how much;
* `gone d l`    the items that gave all they had and are removed;
* `left d l`    what is left of the list.

`taken_sum`: the total is `min d (total l)`.  `total_split`: what is given and what is left add up,
also when only the items with some property are counted.  `left_add` and `taken_add`: a demand may be
met in two parts; an item that gives to both is then listed twice, and `merge` puts that together.
-/

namespace Greedy

variable {α : Type} (qty : α → ℕ) (reduce : α → ℕ → α)

def total (l : List α) : ℕ := (l.map qty).sum

theorem total_nil : total qty [] = 0 := rfl
theorem total_cons (a : α) (l : List α) : total qty (a :: l) = qty a + total qty l := by
  simp [total]
theorem total_append (a b : List α) : total qty (a ++ b) = total qty a + total qty b := by
  simp [total]

def taken (d : ℕ) : List α → List (α × ℕ)
  | [] => []
  | a :: l =>
    if d = 0 then [] else if qty a ≤ d then (a, qty a) :: taken (d - qty a) l else [(a, d)]

def gone (d : ℕ) : List α → List α
  | [] => []
  | a :: l => if d = 0 then [] else if qty a ≤ d then a :: gone (d - qty a) l else []

def left (d : ℕ) : List α → List α
  | [] => []
  | a :: l => if d = 0 then a :: l else if qty a ≤ d then left (d - qty a) l else reduce a d :: l

section
variable {d : ℕ} {a : α} (l : List α)

theorem taken_zero : taken qty 0 l = [] := by
  cases l with
  | nil => rfl
  | cons a l => exact if_pos rfl
theorem gone_zero : gone qty 0 l = [] := by
  cases l with
  | nil => rfl
  | cons a l => exact if_pos rfl
theorem left_zero : left qty reduce 0 l = l := by
  cases l with
  | nil => rfl
  | cons a l => exact if_pos rfl

variable (hd : d ≠ 0)
include hd

theorem taken_all (h : qty a ≤ d) : taken qty d (a :: l) = (a, qty a) :: taken qty (d - qty a) l := by
  rw [taken, if_neg hd, if_pos h]
theorem gone_all (h : qty a ≤ d) : gone qty d (a :: l) = a :: gone qty (d - qty a) l := by
  rw [gone, if_neg hd, if_pos h]
theorem left_all (h : qty a ≤ d) :
    left qty reduce d (a :: l) = left qty reduce (d - qty a) l := by
  rw [left, if_neg hd, if_pos h]

theorem taken_part (h : ¬ qty a ≤ d) : taken qty d (a :: l) = [(a, d)] := by
  rw [taken, if_neg hd, if_neg h]
theorem gone_part (h : ¬ qty a ≤ d) : gone qty d (a :: l) = [] := by
  rw [gone, if_neg hd, if_neg h]
theorem left_part (h : ¬ qty a ≤ d) : left qty reduce d (a :: l) = reduce a d :: l := by
  rw [left, if_neg hd, if_neg h]

end

/-- the items that pass `p` come first, if an item before one that passes also passes -/
theorem filter_append_filter_not (p : α → Bool) (l : List α)
    (h : l.Pairwise fun a b => p b = true → p a = true) :
    l.filter p ++ l.filter (fun a => !p a) = l := by
  induction l with
  | nil => rfl
  | cons a l ih =>
    obtain ⟨h1, h2⟩ := List.pairwise_cons.mp h
    cases ha : p a with
    | true => simp only [List.filter_cons, ha, if_true, Bool.not_true, Bool.false_eq_true, if_false,
        List.cons_append, ih h2]
    | false =>
      have hl : l.filter p = [] := by
        refine List.filter_eq_nil_iff.mpr ?_
        intro b hb hpb
        rw [h1 b hb hpb] at ha
        cases ha
      have hn := ih h2
      rw [hl, List.nil_append] at hn
      simp only [List.filter_cons, ha, Bool.false_eq_true, if_false, Bool.not_false, if_true, hl,
        List.nil_append, hn]

/-! ## what is taken -/

theorem taken_sum (d : ℕ) (l : List α) :
    ((taken qty d l).map Prod.snd).sum = min d (total qty l) := by
  induction l generalizing d with
  | nil => simp [taken, total_nil]
  | cons a l ih =>
    rw [total_cons]
    by_cases hd : d = 0
    · subst hd
      rw [taken_zero]
      simp
    · by_cases h : qty a ≤ d
      · rw [taken_all qty l hd h, List.map_cons, List.sum_cons, ih]
        dsimp only
        omega
      · rw [taken_part qty l hd h]
        simp only [List.map_cons, List.map_nil, List.sum_cons, List.sum_nil]
        omega

/-- the items give in the order of the list -/
theorem taken_initial (d : ℕ) (l : List α) : (taken qty d l).map Prod.fst <+: l := by
  induction l generalizing d with
  | nil => exact List.prefix_refl _
  | cons a l ih =>
    by_cases hd : d = 0
    · subst hd
      rw [taken_zero]
      exact List.nil_prefix
    · by_cases h : qty a ≤ d
      · rw [taken_all qty l hd h, List.map_cons]
        exact (List.prefix_cons_inj a).mpr (ih _)
      · rw [taken_part qty l hd h]
        exact ⟨l, rfl⟩

theorem taken_pos (d : ℕ) (l : List α) (hl : ∀ a ∈ l, 0 < qty a) :
    ∀ t ∈ taken qty d l, 0 < t.2 ∧ t.2 ≤ qty t.1 := by
  induction l generalizing d with
  | nil => exact nofun
  | cons a l ih =>
    intro t ht
    by_cases hd : d = 0
    · subst hd
      rw [taken_zero] at ht
      cases ht
    · by_cases h : qty a ≤ d
      · rw [taken_all qty l hd h] at ht
        rcases List.mem_cons.mp ht with rfl | ht
        · exact ⟨hl a (List.mem_cons_self ..), le_refl _⟩
        · exact ih _ (fun b hb => hl b (List.mem_cons_of_mem _ hb)) t ht
      · rw [taken_part qty l hd h, List.mem_singleton] at ht
        subst ht
        exact ⟨by dsimp only; omega, by dsimp only; omega⟩

/-- only the last item that gives may keep something -/
theorem taken_dropLast (d : ℕ) (l : List α) :
    ∀ t ∈ (taken qty d l).dropLast, t.2 = qty t.1 := by
  induction l generalizing d with
  | nil => exact nofun
  | cons a l ih =>
    intro t ht
    by_cases hd : d = 0
    · subst hd
      rw [taken_zero] at ht
      cases ht
    · by_cases h : qty a ≤ d
      · rw [taken_all qty l hd h] at ht
        cases hr : taken qty (d - qty a) l with
        | nil =>
          rw [hr] at ht
          cases ht
        | cons b r =>
          rw [hr, List.dropLast_cons_cons] at ht
          rcases List.mem_cons.mp ht with rfl | ht
          · rfl
          · exact ih (d - qty a) t (by rw [hr]; exact ht)
      · rw [taken_part qty l hd h] at ht
        cases ht

/-! ## what is left -/

/-- a key that `reduce` does not change -/
theorem gone_append_left {κ : Type} (key : α → κ) (hk : ∀ a n, key (reduce a n) = key a) (d : ℕ)
    (l : List α) : (gone qty d l).map key ++ (left qty reduce d l).map key = l.map key := by
  induction l generalizing d with
  | nil => rfl
  | cons a l ih =>
    by_cases hd : d = 0
    · subst hd
      rw [gone_zero, left_zero]
      rfl
    · by_cases h : qty a ≤ d
      · rw [gone_all qty l hd h, left_all qty reduce l hd h, List.map_cons, List.cons_append, ih,
          List.map_cons]
      · rw [gone_part qty l hd h, left_part qty reduce l hd h]
        simp [hk]

theorem mem_left {d : ℕ} {l : List α} {b : α} (hb : b ∈ left qty reduce d l) :
    b ∈ l ∨ ∃ a ∈ l, ∃ n, 0 < n ∧ n < qty a ∧ b = reduce a n := by
  induction l generalizing d with
  | nil => cases hb
  | cons a l ih =>
    by_cases hd : d = 0
    · subst hd
      rw [left_zero] at hb
      exact Or.inl hb
    · by_cases h : qty a ≤ d
      · rw [left_all qty reduce l hd h] at hb
        rcases ih hb with hb | ⟨a', ha', n, hn⟩
        · exact Or.inl (List.mem_cons_of_mem _ hb)
        · exact Or.inr ⟨a', List.mem_cons_of_mem _ ha', n, hn⟩
      · rw [left_part qty reduce l hd h] at hb
        rcases List.mem_cons.mp hb with rfl | hb
        · exact Or.inr ⟨a, List.mem_cons_self .., d, by omega, by omega, rfl⟩
        · exact Or.inl (List.mem_cons_of_mem _ hb)

/-- nothing is left if the demand is not met -/
theorem left_eq_nil {d : ℕ} {l : List α} (h : total qty l < d) : left qty reduce d l = [] := by
  induction l generalizing d with
  | nil => rfl
  | cons a l ih =>
    rw [total_cons] at h
    rw [left_all qty reduce l (by omega) (by omega)]
    exact ih (by omega)

/-- **what is given and what is left add up**, for the items with the property `p` -/
theorem total_split (p : α → Bool) (hp : ∀ a n, p (reduce a n) = p a)
    (hq : ∀ a n, n ≤ qty a → qty (reduce a n) = qty a - n) (d : ℕ) (l : List α) :
    total qty (l.filter p)
      = (((taken qty d l).filter fun t => p t.1).map Prod.snd).sum
        + total qty ((left qty reduce d l).filter p) := by
  induction l generalizing d with
  | nil => rfl
  | cons a l ih =>
    by_cases hd : d = 0
    · subst hd
      rw [taken_zero, left_zero]
      simp
    · by_cases h : qty a ≤ d
      · have hl := ih (d - qty a)
        rw [taken_all qty l hd h, left_all qty reduce l hd h]
        cases hpa : p a with
        | true =>
          simp only [List.filter_cons, hpa, if_true, total_cons, List.map_cons, List.sum_cons]
          omega
        | false =>
          simp only [List.filter_cons, hpa, Bool.false_eq_true, if_false]
          exact hl
      · have hr := hq a d (by omega)
        rw [taken_part qty l hd h, left_part qty reduce l hd h]
        cases hpa : p a with
        | true =>
          simp only [List.filter_cons, List.filter_nil, hp, hpa, if_true, total_cons,
            List.map_cons, List.map_nil, List.sum_cons, List.sum_nil, hr]
          omega
        | false =>
          simp only [List.filter_cons, List.filter_nil, hp, hpa, Bool.false_eq_true, if_false,
            List.map_nil, List.sum_nil, Nat.zero_add]

/-! ## a demand in two parts -/

section
variable (hq : ∀ a n, n ≤ qty a → qty (reduce a n) = qty a - n)
include hq

theorem total_left (d : ℕ) (l : List α) :
    total qty (left qty reduce d l) = total qty l - d := by
  have h := total_split qty reduce (fun _ => true) (fun _ _ => rfl) hq d l
  simp only [List.filter_true] at h
  rw [taken_sum] at h
  omega

theorem left_add (hr : ∀ a m n, reduce (reduce a m) n = reduce a (m + n)) (d e : ℕ) (l : List α) :
    left qty reduce (d + e) l = left qty reduce e (left qty reduce d l) := by
  induction l generalizing d with
  | nil => rfl
  | cons a l ih =>
    by_cases hd : d = 0
    · subst hd
      rw [left_zero, Nat.zero_add]
    · by_cases h : qty a ≤ d
      · rw [left_all qty reduce l (by omega) (by omega), left_all qty reduce l hd h, ← ih]
        congr 1
        omega
      · -- the item gives to the first part and keeps something for the second
        have hk := hq a d (by omega)
        rw [left_part qty reduce l hd h]
        by_cases he : e = 0
        · subst he
          rw [left_zero, Nat.add_zero, left_part qty reduce l hd h]
        · by_cases h' : qty a ≤ d + e
          · rw [left_all qty reduce l (by omega) h', left_all qty reduce l he (by omega), hk]
            congr 1
            omega
          · rw [left_part qty reduce l (by omega) h', left_part qty reduce l he (by omega), hr]

end

section
variable {κ : Type} (key : α → κ)

/-- what the items give, under their keys -/
def keyed (t : List (α × ℕ)) : List (κ × ℕ) := t.map (Prod.map key id)

theorem keyed_cons (a : α) (n : ℕ) (t : List (α × ℕ)) :
    keyed key ((a, n) :: t) = (key a, n) :: keyed key t := rfl

theorem keys_taken (d : ℕ) (l : List α) :
    ((keyed key (taken qty d l)).map Prod.fst).Sublist (l.map key) := by
  have h := ((taken_initial qty d l).sublist.map key)
  rw [List.map_map] at h
  rw [keyed, List.map_map]
  exact h

end

section
variable {κ : Type} [DecidableEq κ]

/-- amounts with the same key that follow each other are added up -/
def merge : List (κ × ℕ) → List (κ × ℕ)
  | [] => []
  | x :: l => match merge l with
    | [] => [x]
    | y :: r => if x.1 = y.1 then (x.1, x.2 + y.2) :: r else x :: y :: r

theorem merge_cons_ne {x : κ × ℕ} {l : List (κ × ℕ)} (h : x.1 ∉ (merge l).map Prod.fst) :
    merge (x :: l) = x :: merge l := by
  rw [merge]
  cases hl : merge l with
  | nil => rfl
  | cons y r =>
    rw [hl, List.map_cons, List.mem_cons, not_or] at h
    exact if_neg h.1

theorem merge_cons_eq {k : κ} {m n : ℕ} {l r : List (κ × ℕ)} (h : merge l = (k, n) :: r) :
    merge ((k, m) :: l) = (k, m + n) :: r := by
  rw [merge, h]
  exact if_pos rfl

theorem merge_of_nodup {l : List (κ × ℕ)} (h : (l.map Prod.fst).Nodup) : merge l = l := by
  induction l with
  | nil => rfl
  | cons x l ih =>
    obtain ⟨h1, h2⟩ := List.nodup_cons.mp h
    have hl := ih h2
    rw [merge_cons_ne (by rw [hl]; exact h1), hl]

variable (key : α → κ)

/-- **a demand may be met in two parts** -/
theorem taken_add (hk : ∀ a n, key (reduce a n) = key a)
    (hq : ∀ a n, n ≤ qty a → qty (reduce a n) = qty a - n) (d e : ℕ) {l : List α}
    (hl : (l.map key).Nodup) :
    merge (keyed key (taken qty d l) ++ keyed key (taken qty e (left qty reduce d l)))
      = keyed key (taken qty (d + e) l) := by
  induction l generalizing d with
  | nil => rfl
  | cons a l ih =>
    obtain ⟨hnew, hl'⟩ := List.nodup_cons.mp (show (key a :: l.map key).Nodup from hl)
    by_cases hd : d = 0
    · subst hd
      rw [taken_zero, left_zero, Nat.zero_add]
      exact merge_of_nodup ((keys_taken qty key e (a :: l)).nodup hl)
    · by_cases h : qty a ≤ d
      · rw [taken_all qty l hd h, left_all qty reduce l hd h, keyed_cons, List.cons_append,
          taken_all qty l (by omega) (by omega), keyed_cons]
        have ih' := ih (d - qty a) hl'
        rw [show d - qty a + e = d + e - qty a by omega] at ih'
        rw [merge_cons_ne, ih']
        rw [ih']
        exact fun hc => hnew ((keys_taken qty key _ l).subset hc)
      · have hqa := hq a d (by omega)
        rw [taken_part qty l hd h, left_part qty reduce l hd h]
        by_cases he : e = 0
        · subst he
          rw [taken_zero, Nat.add_zero, taken_part qty l hd h]
          rfl
        · -- the second part starts with the item that the first one stopped at
          have hsame : ∀ n t, keyed key ((reduce a d, n) :: t) = (key a, n) :: keyed key t := by
            intro n t
            rw [keyed_cons, hk]
          by_cases h' : qty a ≤ d + e
          · rw [taken_all qty l he (by omega), taken_all qty l (by omega) h', hsame, hqa,
              show e - (qty a - d) = d + e - qty a by omega, keyed_cons]
            have hrest : merge ((key a, qty a - d) :: keyed key (taken qty (d + e - qty a) l))
                = (key a, qty a - d) :: keyed key (taken qty (d + e - qty a) l) := by
              refine merge_of_nodup (List.nodup_cons.mpr ⟨?_, ?_⟩)
              · exact fun hc => hnew ((keys_taken qty key _ l).subset hc)
              · exact (keys_taken qty key _ l).nodup hl'
            show merge ((key a, d) :: (key a, qty a - d) :: _) = _
            rw [merge_cons_eq hrest, show d + (qty a - d) = qty a by omega]
            rfl
          · rw [taken_part qty l he (by omega), taken_part qty l (by omega) h', hsame, keyed_cons]
            show merge [(key a, d), (key a, e)] = _
            rw [merge_cons_eq rfl]
            rfl

end

end Greedy
