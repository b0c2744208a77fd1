import SystemsCourse.Matching.Loop

/-!
# One side of the book as a list of orders

The orders of a side are listed best price first (`Filed.ordered`), so those that cross an order
are the first ones (`Filed.crossing`).  A new order goes to the back of its price (`Filed.pushBack`),
and the scan of `cancel` removes one order with the id (`Filed.remove`, `removeOrder_found`).
-/

set_option linter.unusedVariables false

namespace Matching
open Wire Greedy

/-! ## prices -/

theorem Side.opposite_opposite (s : Side) : s.opposite.opposite = s := by
  cases s <;> rfl

theorem Side.eq_or_opposite (s s' : Side) : s' = s ∨ s' = s.opposite := by
  cases s <;> cases s' <;> simp [Side.opposite]

theorem Side.better_irrefl (s : Side) (a : Int64) : ¬ s.better a a := by
  cases s <;> exact Int64.lt_irrefl

theorem Side.eq_of_not_better {s : Side} {a b : Int64} (h : ¬ s.better a b) (h' : ¬ s.better b a) :
    a = b := by
  have key : ∀ x y : Int64, ¬ x < y → ¬ y < x → x = y := by
    intro x y h1 h2
    rw [Int64.lt_iff_toInt_lt] at h1 h2
    exact Int64.toInt.inj (by omega)
  cases s with
  | buy => exact key a b h' h
  | sell => exact key a b h h'

/-- an order crosses the prices that are not worse than its limit for the other side -/
theorem Order.crosses_iff (order : Order) (p : Int64) :
    order.crosses p = true ↔ ¬ order.side.opposite.better order.priceTicks p := by
  unfold Order.crosses
  cases order.side with
  | buy => simp [Side.opposite, Side.better]
  | sell => simp [Side.opposite, Side.better]

/-- `l'` is `l` with the order `o` behind those of its price or a better one, and before the others -/
def Inserted (s : Side) (o : Order) (l l' : List Order) : Prop :=
  ∃ A B, l = A ++ B ∧ l' = A ++ o :: B ∧
    (∀ x ∈ A, x.priceTicks = o.priceTicks ∨ s.better x.priceTicks o.priceTicks) ∧
    (∀ y ∈ B, s.better o.priceTicks y.priceTicks)

section
variable {s : Side} {symbol : Bytes} {levels : Levels s}

/-- the orders of a side are listed best price first -/
theorem Filed.ordered (hf : Filed symbol levels) :
    (Levels.orders levels).Pairwise fun x y =>
      x.priceTicks = y.priceTicks ∨ s.better x.priceTicks y.priceTicks := by
  unfold Levels.orders
  rw [List.pairwise_flatMap]
  constructor
  · intro e he
    refine List.pairwise_of_forall_mem_list ?_
    intro x hx y hy
    left
    rw [((hf e he).2 x hx).price, ((hf e he).2 y hy).price]
  · refine levels.sorted.imp_of_mem ?_
    intro e e' he he' hlt x hx y hy
    right
    rw [((hf e he).2 x hx).price, ((hf e' he').2 y hy).price]
    exact hlt

/-- the orders that cross come first -/
theorem Filed.crossing (hf : Filed symbol levels) (order : Order) (hs : s = order.side.opposite) :
    (Levels.orders levels).filter (fun o => order.crosses o.priceTicks)
        ++ (Levels.orders levels).filter (fun o => !order.crosses o.priceTicks)
      = Levels.orders levels := by
  refine filter_append_filter_not _ _ (hf.ordered.imp ?_)
  intro x y hxy hy
  rw [Order.crosses_iff] at hy ⊢
  rcases hxy with h | h
  · rw [h]
    exact hy
  · intro hc
    subst hs
    exact hy (IsTrans.trans _ _ _ hc h)

/-- the entry of the order's price, with the orders `os` before it, in a sorted list of entries -/
theorem Filed.insertAt (hf : Filed symbol levels) {o : Order}
    (ho : o.Rests symbol s o.priceTicks) {levels' : Levels s} {pre post : List (Int64 × Level)}
    {os : List Order} (he : levels'.entries = pre ++ (o.priceTicks, ⟨os ++ [o]⟩) :: post)
    (hold : Levels.orders levels = pre.flatMap (fun e : Int64 × Level => e.2.orders) ++ os
      ++ post.flatMap fun e : Int64 × Level => e.2.orders)
    (hmem : ∀ e ∈ pre ++ post, e ∈ levels.entries)
    (hos : ∀ x ∈ os, x.Rests symbol s o.priceTicks) :
    Filed symbol levels' ∧ Inserted s o (Levels.orders levels) (Levels.orders levels') := by
  have hsorted := levels'.sorted
  rw [he, List.pairwise_append, List.pairwise_cons] at hsorted
  obtain ⟨_, ⟨hpost, _⟩, hpre⟩ := hsorted
  refine ⟨?_, _, _, hold, ?_, ?_, ?_⟩
  · intro e h
    rw [he] at h
    rcases List.mem_append.mp h with h | h
    · exact hf e (hmem e (List.mem_append_left _ h))
    · rcases List.mem_cons.mp h with rfl | h
      · refine ⟨by simp, ?_⟩
        intro x hx
        rcases List.mem_append.mp hx with hx | hx
        · exact hos x hx
        · rw [List.mem_singleton.mp hx]
          exact ho
      · exact hf e (hmem e (List.mem_append_right _ h))
  · unfold Levels.orders
    rw [he]
    simp
  · intro x hx
    rcases List.mem_append.mp hx with hx | hx
    · obtain ⟨e, h, hx⟩ := List.mem_flatMap.mp hx
      right
      rw [((hf e (hmem e (List.mem_append_left _ h))).2 x hx).price]
      exact hpre e h _ (List.mem_cons_self ..)
    · exact Or.inl (hos x hx).price
  · intro y hy
    obtain ⟨e, h, hy⟩ := List.mem_flatMap.mp hy
    rw [((hf e (hmem e (List.mem_append_right _ h))).2 y hy).price]
    exact hpost e h

theorem Filed.pushBack (hf : Filed symbol levels) {o : Order}
    (ho : o.Rests symbol s o.priceTicks) :
    Filed symbol (levels.upsert o.priceTicks (OrderBook.pushBack o)) ∧
      Inserted s o (Levels.orders levels)
        (Levels.orders (levels.upsert o.priceTicks (OrderBook.pushBack o))) := by
  have hu : (levels.upsert o.priceTicks (OrderBook.pushBack o)).entries
      = OrdMap.upsertList s.better o.priceTicks (OrderBook.pushBack o) levels.entries := rfl
  rcases OrdMap.upsertList_spec s.better o.priceTicks (OrderBook.pushBack o) levels.entries with
    ⟨pre, post, e1, _, _, e2⟩ | ⟨pre, k, ⟨os⟩, post, e1, _, h1, h2, e2⟩
  · rw [e2] at hu
    refine hf.insertAt ho hu (by simp [Levels.orders, e1]) ?_ nofun
    intro e h
    rw [e1]
    exact h
  · have hk : o.priceTicks = k := Side.eq_of_not_better h1 h2
    subst hk
    rw [e2] at hu
    refine hf.insertAt ho hu (by simp [Levels.orders, e1]) ?_ ?_
    · intro e h
      rw [e1]
      rcases List.mem_append.mp h with h | h
      · exact List.mem_append_left _ h
      · exact List.mem_append_right _ (List.mem_cons_of_mem _ h)
    · exact (hf (o.priceTicks, ⟨os⟩) (by rw [e1]; simp)).2

/-- the scan of `cancel` removes one order from one level, which disappears if it was alone there -/
theorem removeOrder_entries {id : UInt64} {levels' : Levels s}
    (h : levels.alterFirst (OrderBook.removeOrder id) = some levels') :
    ∃ pre p A o B post, levels.entries = pre ++ (p, ⟨A ++ o :: B⟩) :: post ∧ o.id = id ∧
      levels'.entries = pre ++ ((if A ++ B = [] then [] else [(p, ⟨A ++ B⟩)]) ++ post) := by
  obtain ⟨pre, p, ⟨os⟩, v', post, e1, _, e2, e3⟩ :=
    OrdMap.alterList_some (OrdMap.alterFirst_some h)
  unfold OrderBook.removeOrder at e2
  split at e2
  · rename_i hany
    obtain ⟨x, hx, hxid⟩ := List.any_eq_true.mp hany
    obtain ⟨o, A, B, _, hoid, hab, her⟩ :=
      List.exists_of_eraseP (p := fun o : Order => o.id == id) hx hxid
    dsimp only at hab her e2
    rw [her] at e2
    refine ⟨pre, p, A, o, B, post, by rw [e1, hab], by simpa using hoid, ?_⟩
    rw [e3]
    cases e2
    split_ifs <;> rfl
  · cases e2

/-- the scan of `cancel` removes one order with the id -/
theorem Filed.remove (hf : Filed symbol levels) {id : UInt64} {levels' : Levels s}
    (h : levels.alterFirst (OrderBook.removeOrder id) = some levels') :
    Filed symbol levels' ∧ ∃ A o B, Levels.orders levels = A ++ o :: B ∧ o.id = id ∧
      Levels.orders levels' = A ++ B := by
  obtain ⟨pre, p, A, o, B, post, e1, hid, e2⟩ := removeOrder_entries h
  obtain ⟨_, hos⟩ := hf (p, ⟨A ++ o :: B⟩) (by rw [e1]; simp)
  refine ⟨?_, pre.flatMap (fun e => e.2.orders) ++ A, o,
    B ++ post.flatMap (fun e => e.2.orders), ?_, hid, ?_⟩
  · intro e he
    rw [e2] at he
    rcases List.mem_append.mp he with he | he
    · exact hf e (by rw [e1]; exact List.mem_append_left _ he)
    · rcases List.mem_append.mp he with he | he
      · -- the level itself, without the order
        split_ifs at he with hnil
        · cases he
        · cases List.mem_singleton.mp he
          refine ⟨hnil, fun y hy => hos y ?_⟩
          rcases List.mem_append.mp hy with hy | hy
          · exact List.mem_append_left _ hy
          · exact List.mem_append_right _ (List.mem_cons_of_mem _ hy)
      · exact hf e (by rw [e1]; exact List.mem_append_right _ (List.mem_cons_of_mem _ he))
  · unfold Levels.orders
    rw [e1]
    simp
  · unfold Levels.orders
    rw [e2]
    split_ifs with hnil
    · obtain ⟨rfl, rfl⟩ := List.append_eq_nil_iff.mp hnil
      simp
    · simp

/-- the scan of `cancel` finds an id that rests on the side -/
theorem removeOrder_found {o : Order} (ho : o ∈ Levels.orders levels) :
    levels.alterFirst (OrderBook.removeOrder o.id) ≠ none := by
  intro h
  obtain ⟨e, he, hoe⟩ := List.mem_flatMap.mp ho
  have hn := OrdMap.alterFirst_none h e he
  unfold OrderBook.removeOrder at hn
  rw [if_pos (List.any_eq_true.mpr ⟨o, hoe, by simp⟩)] at hn
  cases hn

end

end Matching
