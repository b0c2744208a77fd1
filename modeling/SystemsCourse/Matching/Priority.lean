import SystemsCourse.Matching.Invariant

/-!
# Price-time priority

`arrivals` lists the ids that the calls of a run accepted.  Orders of one price rest in the order of
their arrival (`Aged`, `aged_run`): an order that rests goes behind those of its price, and the
others only leave or lose quantity.

`price_time_priority`: an accepted order trades with the resting orders that cross it, best price
first and in each price in order of arrival, and each but the last is exhausted.
-/

set_option linter.unusedVariables false

namespace Matching
open Wire Greedy

theorem OrderBook.accepts_of_ack {book book' : OrderBook} {order : Order} {fills fills' : List Fill}
    {ack : Ack} (hs : book.submit order fills = some (ack, fills', book'))
    (ha : ack.accepted = true) : book.Accepts order := by
  by_contra hv
  obtain ⟨ack', h', e⟩ := book.submit_rejected order fills hv
  rw [e] at hs
  cases hs
  rw [h'] at ha
  cases ha

theorem OrderBook.inv_of_run {symbol : Bytes} {ops : List Op} {book : OrderBook}
    (hrun : (OrderBook.new symbol).run ops = some book) : book.Inv := by
  obtain ⟨book', e, h, _⟩ := OrderBook.run_new symbol ops
  rw [hrun] at e
  cases e
  exact h

theorem Order.fills_length (order : Order) (t : List (Order × ℕ)) :
    (order.fills t).length = t.length := List.length_map ..

theorem Order.fills_makerId (order : Order) (t : List (Order × ℕ)) :
    (order.fills t).map Fill.makerId = (t.map Prod.fst).map Order.id := by
  simp [Order.fills, Order.fill, Function.comp_def]

theorem toNat_ofNat_le {n : ℕ} {o : Order} (h : n ≤ o.qty) : (UInt64.ofNat n).toNat = n :=
  UInt64.toNat_ofNat_of_lt' (lt_of_le_of_lt h o.quantity.toNat_lt)

section
variable {order : Order} {X : List Order} (hX : ∀ o ∈ X, 0 < o.qty)
include hX

/-- the quantities of the fills are what was taken -/
theorem Order.fills_quantity (d : ℕ) :
    (order.fills (taken Order.qty d X)).map (fun f => f.quantity.toNat)
      = (taken Order.qty d X).map Prod.snd := by
  rw [Order.fills, List.map_map]
  refine List.map_congr_left ?_
  intro t ht
  exact toNat_ofNat_le (taken_pos Order.qty d X hX t ht).2

/-- **the fills one by one**: fill `i` is against order `i` -/
theorem Order.fills_get (d i : ℕ) (f : Fill)
    (hf : (order.fills (taken Order.qty d X))[i]? = some f) :
    ∃ m, X[i]? = some m ∧ f.takerId = order.id ∧ f.makerId = m.id ∧ f.takerSide = order.side ∧
      f.priceTicks = m.priceTicks ∧ f.sequence = order.sequence ∧ 0 < f.quantity ∧
      f.quantity ≤ m.quantity ∧
      (i + 1 < (order.fills (taken Order.qty d X)).length → f.quantity = m.quantity) := by
  rw [Order.fills_length]
  rw [Order.fills, List.getElem?_map] at hf
  obtain ⟨⟨m, n⟩, ht, rfl⟩ := Option.map_eq_some_iff.mp hf
  obtain ⟨hpos, hle⟩ := taken_pos Order.qty d X hX (m, n) (List.mem_of_getElem? ht)
  dsimp only at hpos hle
  have hn : (UInt64.ofNat n).toNat = n := toNat_ofNat_le hle
  have hm : X[i]? = some m := by
    obtain ⟨r, hr⟩ := taken_initial Order.qty d X
    have hlt : i < ((taken Order.qty d X).map Prod.fst).length := by
      rw [List.length_map]
      exact (List.getElem?_eq_some_iff.mp ht).1
    rw [← hr, List.getElem?_append_left hlt, List.getElem?_map, ht]
    rfl
  refine ⟨m, hm, rfl, rfl, rfl, rfl, rfl, ?_, ?_, ?_⟩
  · exact UInt64.lt_iff_toNat_lt.mpr (by show 0 < (UInt64.ofNat n).toNat; omega)
  · exact UInt64.le_iff_toNat_le.mpr (by show (UInt64.ofNat n).toNat ≤ m.qty; omega)
  · intro hi
    have hlast : (m, n) ∈ (taken Order.qty d X).dropLast := by
      refine List.mem_of_getElem? (i := i) ?_
      rw [List.getElem?_dropLast, if_pos (by omega), ht]
    have hq := taken_dropLast Order.qty d X (m, n) hlast
    dsimp only at hq
    show UInt64.ofNat n = m.quantity
    rw [hq]
    exact UInt64.ofNat_toNat

end

/-! ## order of arrival -/

/-- the ids of the accepted submissions, in the order of the calls -/
def OrderBook.arrivals (book : OrderBook) : List Op → List UInt64
  | [] => []
  | .submit order :: ops =>
    match book.submit order [] with
    | none => []
    | some (ack, _, book') =>
      if ack.accepted then order.id :: book'.arrivals ops else book'.arrivals ops
  | .cancel id :: ops => (book.cancel id).2.arrivals ops

/-- the last arrival of `a` is before the last arrival of `b` -/
def ArrivedBefore (arrivals : List UInt64) (a b : UInt64) : Prop :=
  ∃ pre post, arrivals = pre ++ b :: post ∧ a ∈ pre ∧ a ∉ b :: post ∧ b ∉ post

theorem ArrivedBefore.concat {arrivals : List UInt64} {a b n : UInt64}
    (h : ArrivedBefore arrivals a b) (ha : a ≠ n) (hb : b ≠ n) :
    ArrivedBefore (arrivals ++ [n]) a b := by
  obtain ⟨pre, post, rfl, h1, h2, h3⟩ := h
  refine ⟨pre, post ++ [n], by simp, h1, ?_, ?_⟩
  · rw [← List.cons_append, List.mem_append, List.mem_singleton]
    exact not_or.mpr ⟨h2, ha⟩
  · rw [List.mem_append, List.mem_singleton]
    exact not_or.mpr ⟨h3, hb⟩

/-- the orders of a list arrived, those of one price in the order of the list -/
structure Aged (arrivals : List UInt64) (l : List Order) : Prop where
  arrived : ∀ o ∈ l, o.id ∈ arrivals
  ordered : l.Pairwise fun x y => x.priceTicks = y.priceTicks → ArrivedBefore arrivals x.id y.id

/-- what does not change while an order rests -/
def Order.key (o : Order) : UInt64 × Int64 := (o.id, o.priceTicks)

namespace Aged
variable {arrivals : List UInt64} {l l' : List Order} (h : Aged arrivals l)
include h

/-- orders leave or lose quantity -/
theorem sublist (hs : (l'.map Order.key).Sublist (l.map Order.key)) : Aged arrivals l' := by
  constructor
  · intro o ho
    obtain ⟨o', ho', e⟩ := List.mem_map.mp (hs.subset (List.mem_map_of_mem ho))
    have hid : o'.id = o.id := congrArg Prod.fst e
    rw [← hid]
    exact h.arrived o' ho'
  · have hl : (l.map Order.key).Pairwise fun x y =>
        x.2 = y.2 → ArrivedBefore arrivals x.1 y.1 := List.pairwise_map.mpr h.ordered
    exact List.pairwise_map.mp (hl.sublist hs)

/-- an order arrives that is not in the list -/
theorem concat {n : UInt64} (hn : n ∉ l.map Order.id) : Aged (arrivals ++ [n]) l := by
  have hne : ∀ o ∈ l, o.id ≠ n := fun o ho e => hn (e ▸ List.mem_map_of_mem ho)
  constructor
  · intro o ho
    exact List.mem_append_left _ (h.arrived o ho)
  · refine h.ordered.imp_of_mem ?_
    intro x y hx hy hxy hp
    exact (hxy hp).concat (hne x hx) (hne y hy)

/-- an order arrives and rests -/
theorem insert {s : Side} {o : Order} (hn : o.id ∉ l.map Order.id) (hi : Inserted s o l l') :
    Aged (arrivals ++ [o.id]) l' := by
  have hl := h.concat hn
  obtain ⟨A, B, rfl, rfl, hA, hB⟩ := hi
  constructor
  · intro x hx
    rcases List.mem_append.mp hx with hx | hx
    · exact hl.arrived x (List.mem_append_left _ hx)
    · rcases List.mem_cons.mp hx with rfl | hx
      · exact List.mem_append_right _ (List.mem_singleton_self _)
      · exact hl.arrived x (List.mem_append_right _ hx)
  · obtain ⟨h1, h2, h3⟩ := List.pairwise_append.mp hl.ordered
    refine List.pairwise_append.mpr ⟨h1, List.pairwise_cons.mpr ⟨?_, h2⟩, ?_⟩
    · -- the orders behind it have a worse price
      intro y hy hp
      exact absurd (hp ▸ hB y hy) (s.better_irrefl _)
    · intro x hx y hy
      rcases List.mem_cons.mp hy with rfl | hy
      · intro _
        have hne : x.id ≠ y.id := fun e => hn (e ▸ List.mem_map_of_mem (List.mem_append_left _ hx))
        refine ⟨arrivals, [], rfl, h.arrived x (List.mem_append_left _ hx), ?_, List.not_mem_nil⟩
        rw [List.mem_singleton]
        exact hne
      · exact h3 x hx y hy

end Aged

section
variable {book : OrderBook} {arrivals : List UInt64} (h : book.Inv)
  (ha : ∀ s, Aged arrivals (book.orders s))
include h ha

theorem aged_submit (order : Order) (hv : book.Accepts order) :
    ∃ remaining fills book', book.submit order []
        = some (⟨order.id, true, remaining, ascii "accepted"⟩, fills, book') ∧ book'.Inv ∧
      ∀ s, Aged (arrivals ++ [order.id]) (book'.orders s) := by
  obtain ⟨remaining, book', e, _, hinv, _⟩ := OrderBook.submit_accepted h order [] hv
  have hnew := h.indexed.notMem hv.2.2.2.2
  have hstep : book.step (.submit order) = some book' := by
    rw [OrderBook.step, e]
    rfl
  refine ⟨remaining, _, book', e, hinv, ?_⟩
  intro s
  rcases OrderBook.side_step Order.key (fun _ _ => rfl) h hstep s with
    hs | ⟨_, remaining', e', _, _, hi⟩
  · exact ((ha s).concat (hnew s)).sublist hs
  · cases e'
    exact (ha s).insert (o := { order with quantity := remaining' }) (hnew s) hi

theorem aged_cancel (id : UInt64) :
    (book.cancel id).2.Inv ∧ ∀ s, Aged arrivals ((book.cancel id).2.orders s) := by
  have hstep : book.step (.cancel id) = some (book.cancel id).2 := rfl
  obtain ⟨book', e, hinv, _⟩ := OrderBook.step_inv h (.cancel id)
  refine ⟨Option.some.inj (hstep.symm.trans e) ▸ hinv, ?_⟩
  intro s
  rcases OrderBook.side_step Order.key (fun _ _ => rfl) h hstep s with hs | ⟨_, _, e', _⟩
  · exact (ha s).sublist hs
  · cases e'

end

/-- **a run keeps the orders of a price in order of arrival** -/
theorem aged_run (ops : List Op) {book last : OrderBook} {arrivals : List UInt64} (h : book.Inv)
    (ha : ∀ s, Aged arrivals (book.orders s)) (hrun : book.run ops = some last) (s : Side) :
    Aged (arrivals ++ book.arrivals ops) (last.orders s) := by
  induction ops generalizing book arrivals with
  | nil =>
    cases hrun
    rw [OrderBook.arrivals, List.append_nil]
    exact ha s
  | cons op ops ih =>
    unfold OrderBook.run at hrun
    cases op with
    | submit order =>
      by_cases hv : book.Accepts order
      · obtain ⟨remaining, fills, book', e, hinv, ha'⟩ := aged_submit h ha order hv
        rw [OrderBook.step, e] at hrun
        have := ih hinv ha' hrun
        rw [List.append_assoc, List.singleton_append] at this
        unfold OrderBook.arrivals
        rw [e]
        exact this
      · obtain ⟨ack, hack, e⟩ := book.submit_rejected order [] hv
        rw [OrderBook.step, e] at hrun
        unfold OrderBook.arrivals
        rw [e]
        dsimp only
        rw [hack]
        exact ih h ha hrun
    | cancel id =>
      obtain ⟨hinv, ha'⟩ := aged_cancel h ha id
      exact ih hinv ha' hrun

/-- **Price-time priority with maximal matching.** -/
theorem price_time_priority (symbol : Bytes) (ops : List Op) (book : OrderBook)
    (hrun : (OrderBook.new symbol).run ops = some book) (order : Order) (fills fills' : List Fill)
    (ack : Ack) (book' : OrderBook) (hs : book.submit order fills = some (ack, fills', book'))
    (ha : ack.accepted = true) :
    ((book.orders order.side.opposite).Pairwise fun x y =>
      order.side.opposite.better x.priceTicks y.priceTicks ∨
      x.priceTicks = y.priceTicks ∧
        ArrivedBefore ((OrderBook.new symbol).arrivals ops) x.id y.id) ∧
    book.orders order.side.opposite = book.makers order ++ book.others order ∧
    ∃ new, fills' = fills ++ new ∧
      new = order.fills (taken Order.qty order.qty (book.makers order)) ∧
      (∀ i f, new[i]? = some f → ∃ m, (book.makers order)[i]? = some m ∧ f.takerId = order.id ∧
        f.makerId = m.id ∧ f.takerSide = order.side ∧ f.priceTicks = m.priceTicks ∧
        f.sequence = order.sequence ∧ order.crosses f.priceTicks = true ∧ 0 < f.quantity ∧
        f.quantity ≤ m.quantity ∧ (i + 1 < new.length → f.quantity = m.quantity)) ∧
      (new.map Fill.makerId).Nodup ∧
      (new.map fun f => f.quantity.toNat).sum
        = min order.qty (total Order.qty (book.makers order)) ∧
      book'.orders order.side.opposite
        = left Order.qty Order.reduce order.qty (book.makers order) ++ book.others order ∧
      (if 0 < ack.remaining ∧ order.tif = .goodTillCancel then
        Inserted order.side { order with quantity := ack.remaining } (book.orders order.side)
          (book'.orders order.side)
      else book'.orders order.side = book.orders order.side) := by
  have h := OrderBook.inv_of_run hrun
  have hv := OrderBook.accepts_of_ack hs ha
  obtain ⟨remaining, book₁, e, _, _, _, hopp, hown⟩ :=
    OrderBook.submit_accepted h order fills hv
  rw [hs] at e
  cases e
  have haged : Aged ([] ++ (OrderBook.new symbol).arrivals ops)
      (book.orders order.side.opposite) := by
    refine aged_run ops (OrderBook.new_inv symbol) ?_ hrun _
    intro s
    rw [OrderBook.orders_new]
    exact ⟨nofun, List.Pairwise.nil⟩
  refine ⟨?_, (h.makers_append_others order).symm, _, rfl, rfl, ?_, ?_, ?_, hopp,
    hown⟩
  · refine (h.filed _).ordered.imp₂ ?_ haged.ordered
    intro x y hxy hage
    rcases hxy with hp | hb
    · exact Or.inr ⟨hp, hage hp⟩
    · exact Or.inl hb
  · intro i f hf
    obtain ⟨m, hm, h1, h2, h3, h4, h5, h6, h7, h8⟩ :=
      Order.fills_get (h.makers_pos order) order.qty i f hf
    refine ⟨m, hm, h1, h2, h3, h4, h5, ?_, h6, h7, h8⟩
    rw [h4]
    exact (List.mem_filter.mp (List.mem_of_getElem? hm)).2
  · rw [Order.fills_makerId]
    have hsub : (((taken Order.qty order.qty (book.makers order)).map Prod.fst).map Order.id).Sublist
        (book.ids order.side.opposite) :=
      ((taken_initial Order.qty order.qty (book.makers order)).sublist.trans
        List.filter_sublist).map _
    exact hsub.nodup (h.indexed.nodup _)
  · rw [Order.fills_quantity (h.makers_pos order), taken_sum]

/-- two asks, the better one second, and a bid that takes it and a part of the other -/
def askTen : Order :=
  { id := 1, symbol := [65], side := .sell, priceTicks := 10, quantity := 5 }

def askNine : Order :=
  { id := 2, symbol := [65], side := .sell, priceTicks := 9, quantity := 5 }

def bidTen : Order :=
  { id := 3, symbol := [65], side := .buy, priceTicks := 10, quantity := 7 }

theorem bidTen_submit :
    (((OrderBook.new [65]).run [.submit askTen, .submit askNine]).bind fun book =>
        (book.submit bidTen []).map fun r => (r.1, r.2.1))
      = some (⟨3, true, 0, ascii "accepted"⟩, [⟨3, 2, .buy, 9, 5, 0⟩, ⟨3, 1, .buy, 10, 2, 0⟩]) := by
  decide +kernel

theorem price_time_priority_bid :
    ∃ book book', (OrderBook.new [65]).run [.submit askTen, .submit askNine] = some book ∧
      book.submit bidTen [] = some (⟨3, true, 0, ascii "accepted"⟩,
        [⟨3, 2, .buy, 9, 5, 0⟩, ⟨3, 1, .buy, 10, 2, 0⟩], book') ∧
      [⟨3, 2, .buy, 9, 5, 0⟩, ⟨3, 1, .buy, 10, 2, 0⟩]
        = bidTen.fills (taken Order.qty bidTen.qty (book.makers bidTen)) ∧
      book'.orders .sell
        = left Order.qty Order.reduce bidTen.qty (book.makers bidTen) ++ book.others bidTen := by
  obtain ⟨book, hrun, h⟩ := Option.bind_eq_some_iff.mp bidTen_submit
  obtain ⟨⟨ack, fills', book'⟩, hs, e⟩ := Option.map_eq_some_iff.mp h
  cases e
  obtain ⟨_, _, new, h1, h2, _, _, _, h3, _⟩ :=
    price_time_priority [65] _ book hrun bidTen [] _ _ book' hs rfl
  rw [List.nil_append] at h1
  exact ⟨book, book', hrun, hs, h1.trans h2, h3⟩

end Matching
