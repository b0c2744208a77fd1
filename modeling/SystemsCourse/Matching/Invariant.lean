import SystemsCourse.Matching.Levels

/-!
# The representation invariant of the order book

`OrderBook.Inv`: no level is empty, each order is filed under its own price and side, `live_orders_`
is the index of the resting orders, and the book is not crossed.

`submit` and `cancel` are described by what they do to the lists of resting orders
(`Accepted`, `cancel_live`); from that each step keeps the invariant (`step_inv`), and so does each
run (`run_inv`).
-/

set_option linter.unusedVariables false

namespace Matching
open Wire Greedy

/-! ## the index of live orders -/

/-- the index has the ids of each side, and no other -/
structure Indexed (live : Live) (ids : Side → List UInt64) : Prop where
  nodup : ∀ s, (ids s).Nodup
  lookup : ∀ id s, live.lookup id = some s ↔ id ∈ ids s

theorem lookup_foldl_erase (gone : List UInt64) (live : Live) (id : UInt64) :
    (gone.foldl (fun l i => l.erase i) live).lookup id
      = if id ∈ gone then none else live.lookup id := by
  induction gone generalizing live with
  | nil => simp
  | cons g gone ih =>
    rw [List.foldl_cons, ih]
    by_cases hg : id = g
    · subst hg
      simp
    · rw [Finmap.lookup_erase_ne hg]
      simp [hg]

namespace Indexed
variable {live : Live} {ids ids' : Side → List UInt64} (h : Indexed live ids)
include h

theorem disjoint (s : Side) : (ids s).Disjoint (ids s.opposite) := by
  intro id h1 h2
  have e1 := (h.lookup id s).mpr h1
  have e2 := (h.lookup id s.opposite).mpr h2
  rw [e1] at e2
  cases s <;> cases e2

theorem notMem {id : UInt64} (hid : live.lookup id = none) (s : Side) : id ∉ ids s := by
  intro hm
  rw [(h.lookup id s).mpr hm] at hid
  cases hid

/-- the orders `gone` leave the side `s` -/
theorem erase (s : Side) (gone : List UInt64) (hs : (gone ++ ids' s).Perm (ids s))
    (ho : ids' s.opposite = ids s.opposite) :
    Indexed (gone.foldl (fun l i => l.erase i) live) ids' := by
  have hnd : (gone ++ ids' s).Nodup := hs.nodup_iff.mpr (h.nodup s)
  obtain ⟨_, hnd', hdis⟩ := List.nodup_append'.mp hnd
  constructor
  · intro s'
    rcases s.eq_or_opposite s' with rfl | rfl
    · exact hnd'
    · rw [ho]
      exact h.nodup _
  · intro id s'
    have hl := h.lookup id s'
    rw [lookup_foldl_erase]
    rcases s.eq_or_opposite s' with rfl | rfl
    · rw [← hs.mem_iff, List.mem_append] at hl
      split_ifs with hg
      · exact ⟨nofun, fun hm => absurd hm (hdis hg)⟩
      · rw [hl]
        exact ⟨fun hm => hm.resolve_left hg, Or.inr⟩
    · rw [ho]
      split_ifs with hg
      · refine ⟨nofun, fun hm => ?_⟩
        exact absurd hm (h.disjoint s (hs.mem_iff.mp (List.mem_append_left _ hg)))
      · exact hl

/-- the order `id` joins the side `s` -/
theorem insert (s : Side) (id : UInt64) (hid : live.lookup id = none)
    (hs : (id :: ids s).Perm (ids' s)) (ho : ids' s.opposite = ids s.opposite) :
    Indexed (OrderBook.emplace live id s) ids' := by
  have hnew := h.notMem hid
  have hne : s.opposite ≠ s := by cases s <;> nofun
  unfold OrderBook.emplace
  rw [if_pos hid]
  constructor
  · intro s'
    rcases s.eq_or_opposite s' with rfl | rfl
    · exact hs.nodup_iff.mp (List.nodup_cons.mpr ⟨hnew _, h.nodup _⟩)
    · rw [ho]
      exact h.nodup _
  · intro id' s'
    by_cases he : id' = id
    · subst he
      rw [Finmap.lookup_insert]
      rcases s.eq_or_opposite s' with rfl | rfl
      · rw [← hs.mem_iff]
        simp
      · rw [ho]
        refine ⟨fun e => absurd (Option.some.inj e).symm hne, fun hm => absurd hm (hnew _)⟩
    · rw [Finmap.lookup_insert_of_ne _ he, h.lookup]
      rcases s.eq_or_opposite s' with rfl | rfl
      · rw [← hs.mem_iff, List.mem_cons]
        exact ⟨Or.inr, fun hm => hm.resolve_left he⟩
      · rw [ho]

end Indexed

/-! ## the invariant -/

namespace OrderBook

def ids (book : OrderBook) (s : Side) : List UInt64 := (book.orders s).map Order.id

structure Inv (book : OrderBook) : Prop where
  filed : ∀ s, Filed book.symbol (book.levels s)
  indexed : Indexed book.live book.ids
  uncrossed : ∀ s, ∀ o ∈ book.orders s, ∀ m ∈ book.orders s.opposite,
    s.opposite.better o.priceTicks m.priceTicks

theorem orders_new (symbol : Bytes) (s : Side) : (OrderBook.new symbol).orders s = [] := by
  cases s <;> rfl

theorem new_inv (symbol : Bytes) : (OrderBook.new symbol).Inv := by
  refine ⟨?_, ⟨?_, ?_⟩, ?_⟩
  · intro s e he
    cases s <;> cases he
  · intro s
    rw [ids, orders_new]
    exact List.nodup_nil
  · intro id s
    rw [ids, orders_new, List.map_nil]
    exact iff_of_false (fun h => by cases h) List.not_mem_nil
  · intro s o ho
    rw [orders_new] at ho
    cases ho

/-! ### fields of a changed book -/

theorem levels_setLevels (book : OrderBook) (s : Side) (l : Levels s) (live : Live) :
    OrderBook.levels { book.setLevels s l with live := live } s = l := by
  cases s <;> rfl

theorem orders_setLevels (book : OrderBook) (s : Side) (l : Levels s) (live : Live) :
    OrderBook.orders { book.setLevels s l with live := live } s = Levels.orders l := by
  rw [orders, levels_setLevels]

theorem levels_setLevels_opposite (book : OrderBook) (s : Side) (l : Levels s) (live : Live) :
    OrderBook.levels { book.setLevels s l with live := live } s.opposite
      = book.levels s.opposite := by
  cases s <;> rfl

theorem orders_setLevels_opposite (book : OrderBook) (s : Side) (l : Levels s) (live : Live) :
    OrderBook.orders { book.setLevels s l with live := live } s.opposite
      = book.orders s.opposite := by
  rw [orders, levels_setLevels_opposite, orders]

theorem symbol_setLevels (book : OrderBook) (s : Side) (l : Levels s) (live : Live) :
    OrderBook.symbol { book.setLevels s l with live := live } = book.symbol := by
  cases s <;> rfl

/-- a book whose side `s` is replaced -/
theorem inv_of_side {book : OrderBook} (h : book.Inv) (s : Side) {l : Levels s} {live : Live}
    (hf : Filed book.symbol l)
    (hi : Indexed live (OrderBook.ids { book.setLevels s l with live := live }))
    (hu : ∀ o ∈ Levels.orders l, ∀ m ∈ book.orders s.opposite,
      s.opposite.better o.priceTicks m.priceTicks) :
    Inv { book.setLevels s l with live := live } := by
  have hflip : ∀ (t : Side) (a b : Int64), t.opposite.better a b ↔ t.better b a := by
    intro t a b
    cases t <;> rfl
  cases s with
  | buy =>
    refine ⟨?_, hi, ?_⟩
    · intro t
      cases t with
      | buy => exact hf
      | sell => exact h.filed .sell
    · intro t o ho m hm
      cases t with
      | buy => exact hu o ho m hm
      | sell => exact (hflip .sell _ _).mpr (hu m hm o ho)
  | sell =>
    refine ⟨?_, hi, ?_⟩
    · intro t
      cases t with
      | buy => exact h.filed .buy
      | sell => exact hf
    · intro t o ho m hm
      cases t with
      | buy => exact (hflip .buy _ _).mpr (hu m hm o ho)
      | sell => exact hu o ho m hm

/-! ### `submit` -/

/-- the checks at the start of `submit` -/
def Accepts (book : OrderBook) (order : Order) : Prop :=
  order.symbol = book.symbol ∧ order.id ≠ 0 ∧ order.quantity ≠ 0 ∧ 0 < order.priceTicks ∧
    book.live.lookup order.id = none

/-- the resting orders that cross the order, best first -/
def makers (book : OrderBook) (order : Order) : List Order :=
  (book.orders order.side.opposite).filter fun o => order.crosses o.priceTicks

/-- the other orders of that side -/
def others (book : OrderBook) (order : Order) : List Order :=
  (book.orders order.side.opposite).filter fun o => !order.crosses o.priceTicks

theorem Inv.makers_append_others {book : OrderBook} (h : book.Inv) (order : Order) :
    book.makers order ++ book.others order = book.orders order.side.opposite :=
  (h.filed _).crossing order rfl

theorem Inv.makers_pos {book : OrderBook} (h : book.Inv) (order : Order) :
    ∀ o ∈ book.makers order, 0 < o.qty := by
  intro o ho
  exact UInt64.lt_iff_toNat_lt.mp ((h.filed _).rests (List.mem_filter.mp ho).1).quantity

theorem submit_rejected (book : OrderBook) (order : Order) (fills : List Fill)
    (h : ¬ book.Accepts order) :
    ∃ ack, ack.accepted = false ∧ book.submit order fills = some (ack, fills, book) := by
  unfold submit
  by_cases h1 : order.symbol ≠ book.symbol
  · rw [if_pos h1]
    exact ⟨_, rfl, rfl⟩
  · rw [if_neg h1]
    by_cases h2 : order.id = 0 ∨ order.quantity = 0 ∨ order.priceTicks ≤ 0
    · rw [if_pos h2]
      exact ⟨_, rfl, rfl⟩
    · rw [if_neg h2]
      by_cases h3 : (book.live.lookup order.id).isSome
      · rw [if_pos h3]
        exact ⟨_, rfl, rfl⟩
      · refine absurd ⟨not_not.mp h1, fun hc => h2 (Or.inl hc), fun hc => h2 (Or.inr (Or.inl hc)),
          ?_, by simpa using h3⟩ h
        exact Int64.not_le.mp fun hc => h2 (Or.inr (Or.inr hc))

/-- `submit` only appends to the fills -/
theorem submit_append (book : OrderBook) (order : Order) (pre fills : List Fill) :
    book.submit order (pre ++ fills)
      = (book.submit order fills).map fun x => (x.1, pre ++ x.2.1, x.2.2) := by
  unfold submit
  rw [matchLoop_append]
  split_ifs
  · rfl
  · rfl
  · rfl
  · cases matchLoop order (book.levels order.side.opposite) book.live order.quantity fills <;> rfl

/-- the book after the loop of an accepted `submit` -/
theorem Inv.matched {book : OrderBook} (h : book.Inv) (order : Order)
    (hv : book.live.lookup order.id = none) (fills : List Fill) :
    ∃ l live remaining,
      matchLoop order (book.levels order.side.opposite) book.live order.quantity fills
        = some (l, live, remaining,
            fills ++ order.fills (taken Order.qty order.qty (book.makers order))) ∧
      remaining.toNat = order.qty - total Order.qty (book.makers order) ∧
      live.lookup order.id = none ∧
      Levels.orders l
        = left Order.qty Order.reduce order.qty (book.makers order) ++ book.others order ∧
      Inv { book.setLevels order.side.opposite l with live := live } := by
  have hsplit := h.makers_append_others order
  obtain ⟨l, remaining, e, hrem, hf, ho⟩ := matchLoop_spec order (book.makers order)
    (book.others order) (book.levels order.side.opposite) book.live order.quantity fills
    (h.filed _) hsplit.symm
    (fun o hm => (List.mem_filter.mp hm).2)
    (fun o hm => by simpa using (List.mem_filter.mp hm).2)
  rw [show order.quantity.toNat = order.qty from rfl] at e hrem ho
  -- the ids that leave the side, and those that stay
  have hids : (gone Order.qty order.qty (book.makers order)).map Order.id
      ++ (Levels.orders l).map Order.id = book.ids order.side.opposite := by
    rw [ho, List.map_append, ← List.append_assoc,
      gone_append_left Order.qty Order.reduce Order.id (fun _ _ => rfl), ← List.map_append, hsplit]
    rfl
  rw [← List.foldl_map (f := Order.id) (g := fun (l : Live) i => l.erase i)] at e
  refine ⟨l, _, remaining, e, hrem, ?_, ho, inv_of_side h _ hf ?_ ?_⟩
  · rw [lookup_foldl_erase, hv, ite_self]
  · refine h.indexed.erase order.side.opposite _ ?_ ?_
    · rw [ids, orders_setLevels]
      exact List.Perm.of_eq hids
    · rw [ids, orders_setLevels_opposite]
      rfl
  · intro o hm m hm'
    have hprice : ∃ o' ∈ book.orders order.side.opposite, o'.priceTicks = o.priceTicks := by
      rw [ho] at hm
      rw [← hsplit]
      rcases List.mem_append.mp hm with hm | hm
      · rcases mem_left Order.qty Order.reduce hm with hm | ⟨a, ha, n, _, _, rfl⟩
        · exact ⟨o, List.mem_append_left _ hm, rfl⟩
        · exact ⟨a, List.mem_append_left _ ha, rfl⟩
      · exact ⟨o, List.mem_append_right _ hm, rfl⟩
    obtain ⟨o', hm, hp⟩ := hprice
    rw [← hp]
    exact h.uncrossed _ o' hm m hm'

/-- how a resting remainder changes the book -/
theorem Inv.rested {book : OrderBook} (h : book.Inv) (order : Order) (remaining : UInt64)
    (hsym : order.symbol = book.symbol) (hid : order.id ≠ 0) (hp : 0 < order.priceTicks)
    (hnew : book.live.lookup order.id = none)
    (hx : 0 < remaining → ∀ m ∈ book.orders order.side.opposite,
      order.crosses m.priceTicks = false) :
    Inv (book.rest order remaining) ∧ (book.rest order remaining).symbol = book.symbol ∧
      (book.rest order remaining).orders order.side.opposite = book.orders order.side.opposite ∧
      (if 0 < remaining ∧ order.tif = .goodTillCancel then
        Inserted order.side { order with quantity := remaining } (book.orders order.side)
          ((book.rest order remaining).orders order.side)
      else (book.rest order remaining).orders order.side = book.orders order.side) := by
  unfold rest
  by_cases hr : remaining > 0 ∧ order.tif = .goodTillCancel
  · rw [if_pos hr, if_pos hr]
    obtain ⟨hf, hins⟩ := (h.filed order.side).pushBack (o := { order with quantity := remaining })
      ⟨rfl, hp, rfl, hsym, hid, hr.1⟩
    refine ⟨inv_of_side h _ hf ?_ ?_, symbol_setLevels .., orders_setLevels_opposite .., ?_⟩
    · refine h.indexed.insert order.side order.id hnew ?_ ?_
      · obtain ⟨A, B, e1, e2, _⟩ := hins
        rw [ids, ids, orders_setLevels, e2, orders, e1, List.map_append, List.map_append,
          List.map_cons]
        exact List.perm_middle.symm
      · rw [ids, orders_setLevels_opposite]
        rfl
    · obtain ⟨A, B, e1, e2, _⟩ := hins
      intro o ho m hm
      rw [e2] at ho
      have hcase : o ∈ book.orders order.side ∨ o = { order with quantity := remaining } := by
        rw [orders, e1]
        rcases List.mem_append.mp ho with ho | ho
        · exact Or.inl (List.mem_append_left _ ho)
        · rcases List.mem_cons.mp ho with ho | ho
          · exact Or.inr ho
          · exact Or.inl (List.mem_append_right _ ho)
      rcases hcase with ho | rfl
      · exact h.uncrossed _ o ho m hm
      · by_contra hc
        have hcr := hx hr.1 m hm
        rw [(order.crosses_iff _).mpr hc] at hcr
        cases hcr
    · rw [orders_setLevels]
      exact hins
  · rw [if_neg hr, if_neg hr]
    exact ⟨h, rfl, rfl, rfl⟩

/-- **what an accepted `submit` does** to the two sides -/
theorem submit_accepted {book : OrderBook} (h : book.Inv) (order : Order) (fills : List Fill)
    (hv : book.Accepts order) :
    ∃ remaining book', book.submit order fills
        = some (⟨order.id, true, remaining, ascii "accepted"⟩,
            fills ++ order.fills (taken Order.qty order.qty (book.makers order)), book') ∧
      remaining.toNat = order.qty - total Order.qty (book.makers order) ∧
      book'.Inv ∧ book'.symbol = book.symbol ∧
      book'.orders order.side.opposite
        = left Order.qty Order.reduce order.qty (book.makers order) ++ book.others order ∧
      (if 0 < remaining ∧ order.tif = .goodTillCancel then
        Inserted order.side { order with quantity := remaining } (book.orders order.side)
          (book'.orders order.side)
      else book'.orders order.side = book.orders order.side) := by
  obtain ⟨hsym, hid, hq, hp, hnew⟩ := hv
  obtain ⟨l, live, remaining, e, hrem, hlive, ho, hinv⟩ := h.matched order hnew fills
  have hopp := orders_setLevels book order.side.opposite l live
  have hown := orders_setLevels_opposite book order.side.opposite l live
  rw [Side.opposite_opposite] at hown
  obtain ⟨h1, h2, h3, h4⟩ := hinv.rested order remaining
    (by rw [symbol_setLevels]; exact hsym) hid hp hlive (by
      intro hr m hm
      -- a demand that is not met has taken every order that crosses
      have hlt : total Order.qty (book.makers order) < order.qty := by
        have := UInt64.lt_iff_toNat_lt.mp hr
        have : (0 : UInt64).toNat = 0 := rfl
        omega
      rw [hopp, ho, left_eq_nil Order.qty Order.reduce hlt, List.nil_append] at hm
      simpa using (List.mem_filter.mp hm).2)
  rw [hown] at h4
  refine ⟨remaining, _, ?_, hrem, h1, by rw [h2, symbol_setLevels], by rw [h3, hopp, ho], h4⟩
  unfold submit
  rw [if_neg (not_not.mpr hsym), if_neg, if_neg (by rw [hnew]; exact Bool.noConfusion), e]
  rintro (hc | hc | hc)
  · exact hid hc
  · exact hq hc
  · exact Int64.not_le.mpr hp hc

/-! ### `cancel` -/

/-- the scan of `cancel` for a live id finds it -/
theorem cancel_live {book : OrderBook} (h : book.Inv) {id : UInt64} {s : Side}
    (hl : book.live.lookup id = some s) :
    (book.levels s).alterFirst (removeOrder id) ≠ none ∧
    ∃ A o B book', book.orders s = A ++ o :: B ∧ o.id = id ∧ book.cancel id = (true, book') ∧
      book'.Inv ∧ book'.symbol = book.symbol ∧ book'.orders s = A ++ B ∧
      book'.orders s.opposite = book.orders s.opposite := by
  obtain ⟨o₀, ho₀, rfl⟩ := List.mem_map.mp ((h.indexed.lookup id s).mp hl)
  have hfound := removeOrder_found ho₀
  refine ⟨hfound, ?_⟩
  obtain ⟨l, e⟩ := Option.ne_none_iff_exists'.mp hfound
  obtain ⟨hf, A, o, B, e1, hid, e2⟩ := (h.filed s).remove e
  refine ⟨A, o, B, { book.setLevels s l with live := book.live.erase o₀.id }, e1, hid, ?_,
    inv_of_side h s hf ?_ ?_, symbol_setLevels .., by rw [orders_setLevels, e2],
    orders_setLevels_opposite ..⟩
  · unfold cancel
    rw [hl]
    dsimp only
    rw [e]
  · refine h.indexed.erase s [o₀.id] ?_ ?_
    · rw [ids, ids, orders_setLevels, e2, orders, e1, List.map_append, List.map_append,
        List.map_cons, hid, List.singleton_append]
      exact List.perm_middle.symm
    · rw [ids, orders_setLevels_opposite]
      rfl
  · intro x hx m hm
    refine h.uncrossed s x ?_ m hm
    rw [orders, e1]
    rw [e2] at hx
    rcases List.mem_append.mp hx with hx | hx
    · exact List.mem_append_left _ hx
    · exact List.mem_append_right _ (List.mem_cons_of_mem _ hx)

theorem cancel_dead {book : OrderBook} {id : UInt64} (hl : book.live.lookup id = none) :
    book.cancel id = (false, book) := by
  unfold cancel
  rw [hl]

/-! ### runs -/

theorem step_inv {book : OrderBook} (h : book.Inv) (op : Op) :
    ∃ book', book.step op = some book' ∧ book'.Inv ∧ book'.symbol = book.symbol := by
  cases op with
  | submit order =>
    by_cases hv : book.Accepts order
    · obtain ⟨remaining, book', e, _, hinv, hsym, _⟩ := submit_accepted h order [] hv
      exact ⟨book', by rw [step, e]; rfl, hinv, hsym⟩
    · obtain ⟨ack, _, e⟩ := submit_rejected book order [] hv
      exact ⟨book, by rw [step, e]; rfl, h, rfl⟩
  | cancel id =>
    cases hl : book.live.lookup id with
    | none => exact ⟨book, by rw [step, cancel_dead hl], h, rfl⟩
    | some s =>
      obtain ⟨_, A, o, B, book', _, _, e, hinv, hsym, _⟩ := cancel_live h hl
      exact ⟨book', by rw [step, e], hinv, hsym⟩

/-- what a call does to a side: orders leave or lose quantity, or the remainder of a submission
joins it -/
theorem side_step {κ : Type} (key : Order → κ) (hk : ∀ o n, key (o.reduce n) = key o)
    {book book' : OrderBook} (h : book.Inv) {op : Op} (e : book.step op = some book') (s : Side) :
    ((book'.orders s).map key).Sublist ((book.orders s).map key) ∨
    ∃ order remaining, op = .submit order ∧ book.Accepts order ∧ order.side = s ∧
      Inserted s { order with quantity := remaining } (book.orders s) (book'.orders s) := by
  cases op with
  | submit order =>
    obtain ⟨r, hs, rfl⟩ := Option.map_eq_some_iff.mp e
    by_cases hv : book.Accepts order
    · obtain ⟨remaining, book₁, e₁, _, _, _, hopp, hown⟩ := submit_accepted h order [] hv
      rw [hs] at e₁
      cases e₁
      rcases order.side.eq_or_opposite s with rfl | rfl
      · split_ifs at hown with hr
        · exact Or.inr ⟨order, remaining, rfl, hv, rfl, hown⟩
        · left
          rw [hown]
      · left
        rw [hopp, ← h.makers_append_others order, List.map_append, List.map_append,
          ← gone_append_left Order.qty Order.reduce key hk order.qty (book.makers order)]
        exact (List.sublist_append_right _ _).append_right _
    · obtain ⟨ack, _, e₁⟩ := submit_rejected book order [] hv
      rw [hs] at e₁
      cases e₁
      exact Or.inl (List.Sublist.refl _)
  | cancel id =>
    cases e
    left
    cases hl : book.live.lookup id with
    | none => rw [cancel_dead hl]
    | some s₀ =>
      obtain ⟨_, A, o, B, book', e1, _, e, _, _, e2, e3⟩ := cancel_live h hl
      rw [e]
      rcases s₀.eq_or_opposite s with rfl | rfl
      · rw [e1, e2]
        exact ((List.sublist_cons_self o B).append_left A).map _
      · rw [e3]

theorem run_inv {book : OrderBook} (h : book.Inv) (ops : List Op) :
    ∃ book', book.run ops = some book' ∧ book'.Inv ∧ book'.symbol = book.symbol := by
  induction ops generalizing book with
  | nil => exact ⟨book, rfl, h, rfl⟩
  | cons op ops ih =>
    obtain ⟨book₁, e1, h1, s1⟩ := step_inv h op
    obtain ⟨book', e2, h2, s2⟩ := ih h1
    refine ⟨book', ?_, h2, s2.trans s1⟩
    rw [run, e1]
    exact e2

/-- the book after a run from the constructor -/
theorem run_new (symbol : Bytes) (ops : List Op) :
    ∃ book, (OrderBook.new symbol).run ops = some book ∧ book.Inv ∧ book.symbol = symbol :=
  run_inv (new_inv symbol) ops

theorem Inv.best_lt {book : OrderBook} (h : book.Inv) {b a : Int64} (hb : book.bestBid = some b)
    (ha : book.bestAsk = some a) : b < a := by
  have key : ∀ (s : Side) (p : Int64), (book.levels s).begin?.map Prod.fst = some p →
      ∃ o ∈ book.orders s, o.priceTicks = p := by
    intro s p hp
    obtain ⟨e, he, rfl⟩ := Option.map_eq_some_iff.mp hp
    have hmem : e ∈ (book.levels s).entries := List.mem_of_mem_head? he
    obtain ⟨hne, hr⟩ := h.filed s e hmem
    obtain ⟨o, ho⟩ := List.exists_mem_of_ne_nil _ hne
    exact ⟨o, List.mem_flatMap.mpr ⟨e, hmem, ho⟩, (hr o ho).price⟩
  obtain ⟨x, hx, rfl⟩ := key .buy b hb
  obtain ⟨y, hy, rfl⟩ := key .sell a ha
  exact h.uncrossed .buy x hx y hy

end OrderBook

/-- **Representation invariant of the order book.**  A run of any calls has a result, so `front()`
is never called on an empty deque, and its book keeps (a) to (d); a `cancel` of a live order finds
it, so the `return false` at the end of `cancel` is not reached. -/
theorem representation_invariant (symbol : Bytes) (ops : List Op) :
    ∃ book, (OrderBook.new symbol).run ops = some book ∧
      (∀ s, ∀ e ∈ (book.levels s).entries, e.2.orders ≠ []) ∧
      (∀ s, ∀ e ∈ (book.levels s).entries, ∀ o ∈ e.2.orders,
        o.priceTicks = e.1 ∧ 0 < e.1 ∧ o.side = s ∧ o.symbol = symbol ∧ o.id ≠ 0 ∧
          0 < o.quantity) ∧
      ((book.orders .buy ++ book.orders .sell).map Order.id).Nodup ∧
      (∀ id s, book.live.lookup id = some s ↔ ∃ o ∈ book.orders s, o.id = id) ∧
      (∀ b a, book.bestBid = some b → book.bestAsk = some a → b < a) ∧
      (∀ order fills, book.submit order fills ≠ none) ∧
      (∀ id s, book.live.lookup id = some s →
        (book.levels s).alterFirst (OrderBook.removeOrder id) ≠ none ∧
          (book.cancel id).1 = true) := by
  obtain ⟨book, e, h, hsym⟩ := OrderBook.run_new symbol ops
  refine ⟨book, e, fun s x hx => (h.filed s x hx).1, ?_, ?_, ?_, fun b a hb ha => h.best_lt hb ha,
    ?_, ?_⟩
  · intro s x hx o ho
    obtain ⟨h1, h2, h3, h4, h5, h6⟩ := (h.filed s x hx).2 o ho
    exact ⟨h1, h2, h3, h4.trans hsym, h5, h6⟩
  · rw [List.map_append]
    exact List.nodup_append'.mpr
      ⟨h.indexed.nodup .buy, h.indexed.nodup .sell, h.indexed.disjoint .buy⟩
  · intro id s
    rw [h.indexed.lookup]
    exact List.mem_map
  · intro order fills
    by_cases hv : book.Accepts order
    · obtain ⟨_, _, e, _⟩ := OrderBook.submit_accepted h order fills hv
      rw [e]
      exact Option.some_ne_none _
    · obtain ⟨_, _, e⟩ := OrderBook.submit_rejected book order fills hv
      rw [e]
      exact Option.some_ne_none _
  · intro id s hl
    obtain ⟨hfound, _, _, _, _, _, _, e, _⟩ := OrderBook.cancel_live h hl
    exact ⟨hfound, by rw [e]⟩

end Matching
