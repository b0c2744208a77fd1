import Mathlib.Data.List.DropRight
import Mathlib.Data.List.TakeWhile

/-!
# Stripping a list on both ends

`strip p l` drops the longest initial and the longest final part of `l` whose items satisfy `p`.
`Stripped p l` says that neither end of `l` satisfies `p`.

`strip_split` is the decomposition `l = a ++ strip p l ++ b`, `strip_pad` its converse: what is
padded by such items is stripped to the same list.  `findIdx?_split` and `findIdx?_pad` do the
same for the first item that satisfies a predicate.
-/

namespace Strip

section
variable {α : Type} (p : α → Bool)

def strip (l : List α) : List α := (l.dropWhile p).rdropWhile p

/-- neither end of the list satisfies `p` -/
def Stripped (l : List α) : Prop :=
  (∀ x ∈ l.head?, p x = false) ∧ (∀ x ∈ l.getLast?, p x = false)

theorem rdropWhile_append_all (l b : List α) (hb : ∀ x ∈ b, p x) :
    (l ++ b).rdropWhile p = l.rdropWhile p := by
  induction b using List.reverseRecOn with
  | nil => rw [List.append_nil]
  | append_singleton b x ih =>
    rw [← List.append_assoc, List.rdropWhile_concat_pos _ _ _ (hb x (by simp)),
      ih (fun y hy => hb y (List.mem_append_left _ hy))]

theorem rdropWhile_of_getLast (l : List α) (h : ∀ x ∈ l.getLast?, p x = false) :
    l.rdropWhile p = l := by
  rw [List.rdropWhile_eq_self_iff]
  intro hl hp
  have := h _ (List.getLast?_eq_some_getLast hl)
  rw [this] at hp
  cases hp

theorem dropWhile_of_head (l : List α) (h : ∀ x ∈ l.head?, p x = false) : l.dropWhile p = l := by
  cases l with
  | nil => rfl
  | cons x l => rw [List.dropWhile_cons_of_neg]; simp [h x rfl]

theorem strip_eq_self {l : List α} (h : Stripped p l) : strip p l = l := by
  rw [strip, dropWhile_of_head p l h.1, rdropWhile_of_getLast p l h.2]

/-- padding does not change the stripped list -/
theorem strip_pad (a l b : List α) (ha : ∀ x ∈ a, p x) (hb : ∀ x ∈ b, p x) (h : Stripped p l) :
    strip p (a ++ l ++ b) = l := by
  cases l with
  | nil =>
    have hab : ∀ x ∈ a ++ b, p x := by
      intro x hx
      rcases List.mem_append.mp hx with e | e
      · exact ha x e
      · exact hb x e
    rw [List.append_nil, strip, List.dropWhile_eq_nil_iff.mpr hab, List.rdropWhile_nil]
  | cons x l =>
    have hx : (x :: l ++ b).dropWhile p = x :: l ++ b :=
      dropWhile_of_head p _ (by simpa using h.1)
    rw [strip, List.append_assoc, List.dropWhile_append_of_pos ha, hx,
      rdropWhile_append_all p _ b hb, rdropWhile_of_getLast p _ h.2]

theorem strip_stripped (l : List α) : Stripped p (strip p l) := by
  have hpre : strip p l <+: l.dropWhile p := List.rdropWhile_prefix p _
  constructor
  · intro x hx
    obtain ⟨t, ht⟩ := hpre
    cases hs : strip p l with
    | nil => rw [hs] at hx; cases hx
    | cons y ys =>
      rw [hs] at hx ht
      cases hx
      have := List.head?_dropWhile_not p l
      rw [← ht] at this
      simpa using this
  · intro x hx
    by_cases hn : strip p l = []
    · rw [hn] at hx; cases hx
    · have hlast := List.rdropWhile_last_not p (l.dropWhile p) hn
      rw [List.getLast?_eq_some_getLast hn] at hx
      cases hx
      exact Bool.eq_false_iff.mpr hlast

/-- the parts that are dropped -/
theorem strip_split (l : List α) :
    ∃ a b, l = a ++ strip p l ++ b ∧ (∀ x ∈ a, p x) ∧ (∀ x ∈ b, p x) := by
  refine ⟨l.takeWhile p, (l.dropWhile p).rtakeWhile p, ?_, ?_, ?_⟩
  · rw [strip, List.append_assoc, List.rdropWhile_append_rtakeWhile, List.takeWhile_append_dropWhile]
  · exact fun x hx => List.mem_takeWhile_imp hx
  · exact fun x hx => List.mem_rtakeWhile_imp hx

/-- a list that starts with one stripped part and ends with another is stripped -/
theorem stripped_append {x m y : List α} (hx : Stripped p x) (hy : Stripped p y) (hxn : x ≠ [])
    (hyn : y ≠ []) : Stripped p (x ++ m ++ y) := by
  constructor
  · intro z hz
    rw [List.append_assoc, List.head?_append_of_ne_nil _ hxn] at hz
    exact hx.1 z hz
  · intro z hz
    rw [List.getLast?_append_of_ne_nil _ hyn] at hz
    exact hy.2 z hz

/-- a list without items that satisfy `p` is stripped -/
theorem stripped_of_all {l : List α} (h : ∀ x ∈ l, p x = false) : Stripped p l :=
  ⟨fun x hx => h x (List.mem_of_mem_head? hx), fun x hx => h x (List.mem_of_mem_getLast? hx)⟩

/-! ## the first item that satisfies a predicate -/

theorem findIdx?_pad (a b : List α) (s : α) (ha : ∀ x ∈ a, p x = false) (hs : p s = true) :
    (a ++ s :: b).findIdx? p = some a.length := by
  have hn : a.findIdx? p = none := List.findIdx?_eq_none_iff.mpr ha
  rw [List.findIdx?_append, hn, List.findIdx?_cons, hs]
  simp

theorem findIdx?_split {l : List α} {i : Nat} (h : l.findIdx? p = some i) :
    ∃ a s b, l = a ++ s :: b ∧ a.length = i ∧ (∀ x ∈ a, p x = false) ∧ p s = true := by
  obtain ⟨hi, hp, hlt⟩ := List.findIdx?_eq_some_iff_getElem.mp h
  refine ⟨l.take i, l[i], l.drop (i+1), ?_, ?_, ?_, hp⟩
  · rw [← List.drop_eq_getElem_cons hi, List.take_append_drop]
  · rw [List.length_take]; omega
  · intro x hx
    obtain ⟨j, hj, e⟩ := List.mem_take_iff_getElem.mp hx
    have := hlt j (by omega)
    rw [← e]
    simpa using this

end

end Strip
