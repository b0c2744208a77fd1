import Mathlib.Data.List.Basic
import Mathlib.Order.Defs.Unbundled

/-!
# Ordered maps

A map as the list of its entries, sorted by key (`std::map` with the comparator `lt`).

* `alterBegin`   change or erase the first entry;
* `alterFirst`   change or erase the first entry that a function picks;
* `upsert`       change the entry of a key, or insert one.

Each operation keeps the order of the keys; `alterFirst_some`, `alterFirst_none` and
`upsertList_spec` say how it splits the list of entries.
-/

/-- `sorted`: no two entries have the same key, and the first one has the least -/
structure OrdMap (K V : Type) (lt : K → K → Prop) where
  entries : List (K × V)
  sorted : entries.Pairwise fun a b => lt a.1 b.1

namespace OrdMap
variable {K V : Type} {lt : K → K → Prop}

theorem ext {m m' : OrdMap K V lt} (h : m.entries = m'.entries) : m = m' := by
  cases m
  cases m'
  cases h
  rfl

def empty : OrdMap K V lt := ⟨[], List.Pairwise.nil⟩

/-- `begin()`, or `none` if the map is empty -/
def begin? (m : OrdMap K V lt) : Option (K × V) := m.entries.head?

/-! ## the first entry -/

def alterHead (f : V → Option V) : List (K × V) → List (K × V)
  | [] => []
  | (k, v) :: es => match f v with
    | some v' => (k, v') :: es
    | none => es

theorem alterHead_sorted (f : V → Option V) {es : List (K × V)}
    (h : es.Pairwise fun a b => lt a.1 b.1) : (alterHead f es).Pairwise fun a b => lt a.1 b.1 := by
  cases es with
  | nil => exact h
  | cons e es =>
    obtain ⟨k, v⟩ := e
    obtain ⟨h1, h2⟩ := List.pairwise_cons.mp h
    show List.Pairwise _ (match f v with | some v' => (k, v') :: es | none => es)
    cases f v with
    | some v' => exact List.pairwise_cons.mpr ⟨h1, h2⟩
    | none => exact h2

/-- the value of the first entry becomes `f` of it; `none` erases the entry -/
def alterBegin (m : OrdMap K V lt) (f : V → Option V) : OrdMap K V lt :=
  ⟨alterHead f m.entries, alterHead_sorted f m.sorted⟩

/-! ## the first entry that is picked -/

def alterList (f : V → Option (Option V)) : List (K × V) → Option (List (K × V))
  | [] => none
  | (k, v) :: es => match f v with
    | some (some v') => some ((k, v') :: es)
    | some none => some es
    | none => (alterList f es).map ((k, v) :: ·)

/-- where the change happens -/
theorem alterList_some {f : V → Option (Option V)} {es es' : List (K × V)}
    (h : alterList f es = some es') :
    ∃ pre k v v' post, es = pre ++ (k, v) :: post ∧ (∀ e ∈ pre, f e.2 = none) ∧ f v = some v' ∧
      es' = pre ++ ((v'.map (k, ·)).toList ++ post) := by
  induction es generalizing es' with
  | nil => cases h
  | cons e es ih =>
    obtain ⟨k, v⟩ := e
    unfold alterList at h
    split at h
    · rename_i v' hv
      cases h
      exact ⟨[], k, v, some v', es, rfl, nofun, hv, rfl⟩
    · rename_i hv
      cases h
      exact ⟨[], k, v, none, es, rfl, nofun, hv, rfl⟩
    · rename_i hv
      cases hr : alterList f es with
      | none =>
        rw [hr] at h
        cases h
      | some es₁ =>
        rw [hr] at h
        cases h
        obtain ⟨pre, k', v₁, v', post, e1, e2, e3, e4⟩ := ih hr
        refine ⟨(k, v) :: pre, k', v₁, v', post, by rw [e1]; rfl, ?_, e3, by rw [e4]; rfl⟩
        intro e he
        rcases List.mem_cons.mp he with rfl | he
        · exact hv
        · exact e2 e he

theorem alterList_none {f : V → Option (Option V)} {es : List (K × V)}
    (h : alterList f es = none) : ∀ e ∈ es, f e.2 = none := by
  induction es with
  | nil => exact nofun
  | cons e es ih =>
    obtain ⟨k, v⟩ := e
    unfold alterList at h
    split at h
    · cases h
    · cases h
    · rename_i hv
      intro e he
      rcases List.mem_cons.mp he with rfl | he
      · exact hv
      · exact ih (Option.map_eq_none_iff.mp h) e he

theorem alterList_sorted {f : V → Option (Option V)} {es es' : List (K × V)}
    (h : es.Pairwise fun a b => lt a.1 b.1) (e : alterList f es = some es') :
    es'.Pairwise fun a b => lt a.1 b.1 := by
  obtain ⟨pre, k, v, v', post, rfl, _, _, rfl⟩ := alterList_some e
  rw [List.pairwise_append, List.pairwise_cons] at h
  obtain ⟨h1, ⟨h2, h3⟩, h4⟩ := h
  rw [List.pairwise_append]
  cases v' with
  | none => exact ⟨h1, h3, fun a ha b hb => h4 a ha b (List.mem_cons_of_mem _ hb)⟩
  | some v' =>
    refine ⟨h1, List.pairwise_cons.mpr ⟨h2, h3⟩, ?_⟩
    intro a ha b hb
    rcases List.mem_cons.mp hb with rfl | hb
    · exact h4 a ha (k, v) (List.mem_cons_self ..)
    · exact h4 a ha b (List.mem_cons_of_mem _ hb)

/-- the first entry whose value `f` picks; `some none` erases it -/
def alterFirst (m : OrdMap K V lt) (f : V → Option (Option V)) : Option (OrdMap K V lt) :=
  match h : alterList f m.entries with
  | some es => some ⟨es, alterList_sorted m.sorted h⟩
  | none => none

theorem alterFirst_some {m m' : OrdMap K V lt} {f : V → Option (Option V)}
    (h : m.alterFirst f = some m') : alterList f m.entries = some m'.entries := by
  unfold alterFirst at h
  split at h
  · rename_i hs
    cases h
    exact hs
  · cases h

theorem alterFirst_entries (m : OrdMap K V lt) (f : V → Option (Option V)) :
    (m.alterFirst f).map entries = alterList f m.entries := by
  unfold alterFirst
  split
  · rename_i hs
    exact hs.symm
  · rename_i hn
    exact hn.symm

theorem alterFirst_none {m : OrdMap K V lt} {f : V → Option (Option V)}
    (h : m.alterFirst f = none) : ∀ e ∈ m.entries, f e.2 = none := by
  unfold alterFirst at h
  split at h
  · cases h
  · rename_i hn
    exact alterList_none hn

/-! ## the entry of a key -/

section
variable (lt) [DecidableRel lt]

def upsertList (k : K) (f : Option V → V) : List (K × V) → List (K × V)
  | [] => [(k, f none)]
  | (k', v) :: es =>
    if lt k k' then (k, f none) :: (k', v) :: es
    else if lt k' k then (k', v) :: upsertList k f es
    else (k', f (some v)) :: es

/-- where the entry is: between the smaller keys and the larger ones -/
theorem upsertList_spec (k : K) (f : Option V → V) (es : List (K × V)) :
    (∃ pre post, es = pre ++ post ∧ (∀ e ∈ pre, lt e.1 k) ∧ (∀ e ∈ post.head?, lt k e.1) ∧
      upsertList lt k f es = pre ++ (k, f none) :: post) ∨
    (∃ pre k' v post, es = pre ++ (k', v) :: post ∧ (∀ e ∈ pre, lt e.1 k) ∧ ¬ lt k k' ∧
      ¬ lt k' k ∧ upsertList lt k f es = pre ++ (k', f (some v)) :: post) := by
  induction es with
  | nil => exact Or.inl ⟨[], [], rfl, nofun, nofun, rfl⟩
  | cons e es ih =>
    obtain ⟨k', v⟩ := e
    unfold upsertList
    by_cases h1 : lt k k'
    · rw [if_pos h1]
      refine Or.inl ⟨[], (k', v) :: es, rfl, nofun, ?_, rfl⟩
      intro e he
      cases he
      exact h1
    · rw [if_neg h1]
      by_cases h2 : lt k' k
      · rw [if_pos h2]
        have hcons : ∀ pre : List (K × V), (∀ e ∈ pre, lt e.1 k) →
            ∀ e ∈ (k', v) :: pre, lt e.1 k := by
          intro pre hpre e he
          rcases List.mem_cons.mp he with rfl | he
          · exact h2
          · exact hpre e he
        rcases ih with ⟨pre, post, e1, e2, e3, e4⟩ | ⟨pre, k₁, v₁, post, e1, e2, e3, e4, e5⟩
        · exact Or.inl ⟨(k', v) :: pre, post, by rw [e1]; rfl, hcons pre e2, e3, by rw [e4]; rfl⟩
        · exact Or.inr ⟨(k', v) :: pre, k₁, v₁, post, by rw [e1]; rfl, hcons pre e2, e3, e4,
            by rw [e5]; rfl⟩
      · rw [if_neg h2]
        exact Or.inr ⟨[], k', v, es, rfl, nofun, h1, h2, rfl⟩

variable {lt} [IsTrans K lt]

theorem upsertList_sorted (k : K) (f : Option V → V) {es : List (K × V)}
    (h : es.Pairwise fun a b => lt a.1 b.1) :
    (upsertList lt k f es).Pairwise fun a b => lt a.1 b.1 := by
  rcases upsertList_spec lt k f es with
    ⟨pre, post, rfl, h1, h2, e⟩ | ⟨pre, k', v, post, rfl, h1, _, _, e⟩
  · rw [e]
    rw [List.pairwise_append] at h
    obtain ⟨hpre, hpost, hx⟩ := h
    -- the smaller entry at the head of `post` bounds the others
    have hall : ∀ b ∈ post, lt k b.1 := by
      cases post with
      | nil => exact nofun
      | cons c post =>
        have hc := h2 c rfl
        intro b hb
        rcases List.mem_cons.mp hb with rfl | hb
        · exact hc
        · exact IsTrans.trans _ _ _ hc ((List.pairwise_cons.mp hpost).1 b hb)
    refine List.pairwise_append.mpr ⟨hpre, List.pairwise_cons.mpr ⟨hall, hpost⟩, ?_⟩
    intro a ha b hb
    rcases List.mem_cons.mp hb with rfl | hb
    · exact h1 a ha
    · exact hx a ha b hb
  · rw [e]
    rw [List.pairwise_append, List.pairwise_cons] at h
    obtain ⟨hpre, ⟨hk, hpost⟩, hx⟩ := h
    refine List.pairwise_append.mpr ⟨hpre, List.pairwise_cons.mpr ⟨hk, hpost⟩, ?_⟩
    intro a ha b hb
    rcases List.mem_cons.mp hb with rfl | hb
    · exact hx a ha (k', v) (List.mem_cons_self ..)
    · exact hx a ha b (List.mem_cons_of_mem _ hb)

/-- `operator[]` and a change of the value; `f none` is the value of a new entry -/
def upsert (m : OrdMap K V lt) (k : K) (f : Option V → V) : OrdMap K V lt :=
  ⟨upsertList lt k f m.entries, upsertList_sorted k f m.sorted⟩

end

/-! ## the keys -/

section
variable {es es' : List (K × V)}

theorem keys_alterHead (f : V → Option V) :
    ((alterHead f es).map Prod.fst).Sublist (es.map Prod.fst) := by
  cases es with
  | nil => exact List.Sublist.refl _
  | cons e es =>
    obtain ⟨k, v⟩ := e
    rw [alterHead]
    split
    · exact List.Sublist.refl _
    · exact List.sublist_cons_self ..

theorem keys_alterList {f : V → Option (Option V)} (h : alterList f es = some es') :
    (es'.map Prod.fst).Sublist (es.map Prod.fst) := by
  obtain ⟨pre, k, v, v', post, rfl, _, _, rfl⟩ := alterList_some h
  cases v' with
  | none => exact ((List.sublist_cons_self ..).append_left pre).map _
  | some v' => simp

theorem keys_upsertList (lt : K → K → Prop) [DecidableRel lt] (k : K) (f : Option V → V) :
    ∀ k' ∈ (upsertList lt k f es).map Prod.fst, k' = k ∨ k' ∈ es.map Prod.fst := by
  rcases upsertList_spec lt k f es with
    ⟨pre, post, rfl, _, _, e⟩ | ⟨pre, k', v, post, rfl, _, _, _, e⟩
  · rw [e]
    intro k' hk
    simp only [List.map_append, List.map_cons, List.mem_append, List.mem_cons] at hk ⊢
    tauto
  · rw [e]
    intro k' hk
    right
    simpa using hk

end

/-! ## renamed entries -/

section
variable {K' V' : Type} (key : K → K') (val : V → V')

theorem alterHead_map {f : V → Option V} {f' : V' → Option V'}
    (hf : ∀ v, f' (val v) = (f v).map val) (es : List (K × V)) :
    alterHead f' (es.map (Prod.map key val)) = (alterHead f es).map (Prod.map key val) := by
  cases es with
  | nil => rfl
  | cons e es =>
    obtain ⟨k, v⟩ := e
    rw [List.map_cons, Prod.map_apply, alterHead, alterHead, hf]
    cases f v <;> rfl

theorem alterList_map {f : V → Option (Option V)} {f' : V' → Option (Option V')}
    (hf : ∀ v, f' (val v) = (f v).map (Option.map val)) (es : List (K × V)) :
    alterList f' (es.map (Prod.map key val))
      = (alterList f es).map (List.map (Prod.map key val)) := by
  induction es with
  | nil => rfl
  | cons e es ih =>
    obtain ⟨k, v⟩ := e
    rw [List.map_cons, Prod.map_apply, alterList, alterList, hf, ih]
    cases f v with
    | none =>
      cases alterList f es <;> rfl
    | some v' => cases v' <;> rfl

/-- a renaming of the keys that keeps their order -/
theorem upsertList_map (lt : K → K → Prop) (lt' : K' → K' → Prop) [DecidableRel lt]
    [DecidableRel lt'] {k : K} {f : Option V → V} {f' : Option V' → V'} (hf : ∀ o, f' (o.map val) = val (f o))
    {es : List (K × V)}
    (hlt : ∀ e ∈ es, (lt' (key k) (key e.1) ↔ lt k e.1) ∧ (lt' (key e.1) (key k) ↔ lt e.1 k)) :
    upsertList lt' (key k) f' (es.map (Prod.map key val))
      = (upsertList lt k f es).map (Prod.map key val) := by
  induction es with
  | nil =>
    show [(key k, f' (Option.map val none))] = [(key k, val (f none))]
    rw [hf]
  | cons e es ih =>
    obtain ⟨k', v⟩ := e
    obtain ⟨h1, h2⟩ := hlt _ (List.mem_cons_self ..)
    have ih' := ih fun e he => hlt e (List.mem_cons_of_mem _ he)
    dsimp only at h1 h2
    rw [List.map_cons, Prod.map_apply, upsertList, upsertList, ih']
    simp only [h1, h2]
    split_ifs with c1 c2
    · rw [show f' none = val (f none) from hf none]
      rfl
    · rfl
    · rw [show f' (some (val v)) = val (f (some v)) from hf (some v)]
      rfl

end

end OrdMap
