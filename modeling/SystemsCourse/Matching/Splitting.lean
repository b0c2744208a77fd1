import SystemsCourse.Matching.Cancel

/-!
# Splitting a taker

The matching loop is greedy, and a greedy demand may be met in two parts (`Greedy.left_add`,
`Greedy.taken_add`).  So two immediate-or-cancel orders of quantities `a` and `b` leave the book of
one order of quantity `a + b`, and the makers trade the same quantities in the same order
(`split_taker`).  A submission with the id `0` is rejected, although that id is never live
(`split_with_zero_id`).
-/

set_option linter.unusedVariables false

namespace Matching
open Wire Greedy

/-- a part of a taker, as an immediate-or-cancel order -/
def Order.slice (taker : Order) (id sequence quantity : UInt64) : Order :=
  { taker with id := id, sequence := sequence, quantity := quantity, tif := .immediateOrCancel }

/-- the maker, the price and the quantity of a fill -/
def Fill.traded (f : Fill) : (UInt64 × Int64) × ℕ := ((f.makerId, f.priceTicks), f.quantity.toNat)

theorem Order.reduce_reduce (o : Order) (m n : ℕ) : (o.reduce m).reduce n = o.reduce (m + n) := by
  unfold Order.reduce
  dsimp only
  have hsub : ∀ a b c : UInt64, a - b - c = a - (b + c) := by
    intro a b c
    grind
  rw [hsub, UInt64.ofNat_add]

/-- the fills show what was taken -/
theorem Order.fills_traded (order : Order) {X : List Order} (hX : ∀ o ∈ X, 0 < o.qty) (d : ℕ) :
    (order.fills (taken Order.qty d X)).map Fill.traded
      = keyed Order.key (taken Order.qty d X) := by
  rw [Order.fills, List.map_map, keyed]
  refine List.map_congr_left ?_
  intro t ht
  have hn := toNat_ofNat_le (taken_pos Order.qty d X hX t ht).2
  show ((t.1.id, t.1.priceTicks), (UInt64.ofNat t.2).toNat) = (t.1.key, t.2)
  rw [hn]
  rfl

namespace OrderBook

/-- the symbol and the price, which the slices of a taker share -/
def Trades (book : OrderBook) (taker : Order) : Prop :=
  taker.symbol = book.symbol ∧ 0 < taker.priceTicks

theorem accepts_slice {book : OrderBook} {taker : Order} (ht : book.Trades taker)
    {id quantity : UInt64} (sequence : UInt64) (hid : id ≠ 0 ∧ book.live.lookup id = none)
    (hq : 0 < quantity) : book.Accepts (taker.slice id sequence quantity) :=
  ⟨ht.1, hid.1, UInt64.pos_iff_ne_zero.mp hq, ht.2, hid.2⟩

theorem submit_slice_rejected {book : OrderBook} {taker : Order} (ht : ¬ book.Trades taker)
    (id sequence quantity : UInt64) :
    ∃ ack, ack.remaining = 0 ∧
      book.submit (taker.slice id sequence quantity) [] = some (ack, [], book) := by
  unfold submit
  by_cases h1 : (taker.slice id sequence quantity).symbol ≠ book.symbol
  · rw [if_pos h1]
    exact ⟨_, rfl, rfl⟩
  · have hp : ¬ 0 < taker.priceTicks := fun hp => ht ⟨not_not.mp h1, hp⟩
    have h2 : (taker.slice id sequence quantity).priceTicks ≤ 0 := Int64.not_lt.mp hp
    rw [if_neg h1, if_pos (Or.inr (Or.inr h2))]
    exact ⟨_, rfl, rfl⟩

/-- an accepted slice: nothing of it rests -/
theorem submit_slice {book : OrderBook} (h : book.Inv) {taker : Order}
    {id sequence quantity : UInt64} (hv : book.Accepts (taker.slice id sequence quantity)) :
    ∃ ack book', book.submit (taker.slice id sequence quantity) []
        = some (ack, (taker.slice id sequence quantity).fills
            (taken Order.qty quantity.toNat (book.makers taker)), book') ∧
      ack.remaining.toNat = quantity.toNat - total Order.qty (book.makers taker) ∧
      book'.Inv ∧ book'.symbol = book.symbol ∧
      book'.orders taker.side.opposite
        = left Order.qty Order.reduce quantity.toNat (book.makers taker) ++ book.others taker ∧
      book'.orders taker.side = book.orders taker.side := by
  obtain ⟨remaining, book', e, hr, hinv, hsym, hopp, hown⟩ := submit_accepted h _ [] hv
  rw [if_neg fun hc => by cases hc.2] at hown
  exact ⟨_, book', e, hr, hinv, hsym, hopp, hown⟩

/-- the orders that still cross after a slice -/
theorem makers_after {book book' : OrderBook} {taker : Order} {d : ℕ}
    (hopp : book'.orders taker.side.opposite
      = left Order.qty Order.reduce d (book.makers taker) ++ book.others taker) :
    book'.makers taker = left Order.qty Order.reduce d (book.makers taker) ∧
      book'.others taker = book.others taker := by
  have hleft : ∀ o ∈ left Order.qty Order.reduce d (book.makers taker),
      taker.crosses o.priceTicks = true := by
    intro o ho
    rcases mem_left Order.qty Order.reduce ho with ho | ⟨m, hm, n, _, _, rfl⟩
    · exact (List.mem_filter.mp ho).2
    · exact (List.mem_filter.mp hm).2
  have hothers : ∀ o ∈ book.others taker, taker.crosses o.priceTicks = false := by
    intro o ho
    simpa using (List.mem_filter.mp ho).2
  unfold makers
  rw [others, hopp, List.filter_append, List.filter_append]
  constructor
  · rw [List.filter_eq_self.mpr hleft, List.filter_eq_nil_iff.mpr, List.append_nil]
    · rfl
    · intro o ho
      rw [hothers o ho]
      exact Bool.false_ne_true
  · rw [List.filter_eq_nil_iff.mpr, List.filter_eq_self.mpr, List.nil_append]
    · intro o ho
      rw [hothers o ho]
      rfl
    · intro o ho
      rw [hleft o ho]
      exact Bool.false_ne_true

end OrderBook

/-- **Splitting a taker changes nothing but the split fill.**  Two immediate-or-cancel orders of
quantities `a` and `b`, with ids that are not zero and not live, leave the book that one order of
quantity `a + b` leaves; put together, their fills have the makers, prices and quantities of its
fills, in the same order; and the remainders add up. -/
theorem split_taker (symbol : Bytes) (ops : List Op) (book : OrderBook)
    (hrun : (OrderBook.new symbol).run ops = some book) (taker : Order) (a b : UInt64)
    (ha : 0 < a) (hb : 0 < b) (hab : a.toNat + b.toNat < 2^64) (i j k : UInt64)
    (hi : i ≠ 0 ∧ book.live.lookup i = none) (hj : j ≠ 0 ∧ book.live.lookup j = none)
    (hk : k ≠ 0 ∧ book.live.lookup k = none) (q r t : UInt64) :
    ∃ ackA ackB ackC fillsA fillsB fillsC book₁ book₂,
      book.submit (taker.slice i q a) [] = some (ackA, fillsA, book₁) ∧
      book₁.submit (taker.slice j r b) [] = some (ackB, fillsB, book₂) ∧
      book.submit (taker.slice k t (a + b)) [] = some (ackC, fillsC, book₂) ∧
      merge ((fillsA ++ fillsB).map Fill.traded) = fillsC.map Fill.traded ∧
      ackA.remaining.toNat + ackB.remaining.toNat = ackC.remaining.toNat := by
  have h := OrderBook.inv_of_run hrun
  by_cases ht : book.Trades taker
  · have hsum : (a + b).toNat = a.toNat + b.toNat := by
      rw [UInt64.toNat_add, Nat.mod_eq_of_lt hab]
    have hpos : 0 < a + b := by
      rw [UInt64.lt_iff_toNat_lt] at ha ⊢
      omega
    obtain ⟨ackA, book₁, eA, hrA, h₁, hsym₁, hopp₁, hown₁⟩ :=
      OrderBook.submit_slice h (OrderBook.accepts_slice ht q hi ha)
    have hlive := h.dead_after h₁ hown₁ hopp₁ hj.2
    have ht₁ : book₁.Trades taker := ⟨ht.1.trans hsym₁.symm, ht.2⟩
    obtain ⟨ackB, book₂, eB, hrB, h₂, hsym₂, hopp₂, hown₂⟩ :=
      OrderBook.submit_slice h₁ (OrderBook.accepts_slice ht₁ r ⟨hj.1, hlive⟩ hb)
    obtain ⟨ackC, book₃, eC, hrC, h₃, hsym₃, hopp₃, hown₃⟩ :=
      OrderBook.submit_slice h (OrderBook.accepts_slice ht t hk hpos)
    obtain ⟨hm, ho⟩ := OrderBook.makers_after hopp₁
    rw [hm] at eB hrB hopp₂
    rw [ho] at hopp₂
    rw [hsum] at eC hrC hopp₃
    have hqty : ∀ (o : Order) n, n ≤ o.qty → (o.reduce n).qty = o.qty - n := Order.qty_reduce
    have hbook : book₃ = book₂ := by
      refine h₃.ext h₂ (hsym₃.trans (hsym₁.symm.trans hsym₂.symm)) fun s => ?_
      rcases taker.side.eq_or_opposite s with rfl | rfl
      · exact hown₃.trans (hown₁.symm.trans hown₂.symm)
      · rw [hopp₃, hopp₂, left_add Order.qty Order.reduce hqty Order.reduce_reduce]
    refine ⟨ackA, ackB, ackC, _, _, _, book₁, book₂, eA, eB, hbook ▸ eC, ?_, ?_⟩
    · have hmakers := h.makers_pos taker
      have hnodup : ((book.makers taker).map Order.key).Nodup := by
        refine List.Nodup.of_map Prod.fst ?_
        rw [List.map_map]
        exact (List.filter_sublist.map Order.id).nodup (h.indexed.nodup _)
      have hleft := h₁.makers_pos taker
      rw [hm] at hleft
      rw [List.map_append, Order.fills_traded _ hmakers, Order.fills_traded _ hleft,
        Order.fills_traded _ hmakers]
      exact taken_add Order.qty Order.reduce Order.key (fun _ _ => rfl) hqty a.toNat b.toNat hnodup
    · rw [total_left Order.qty Order.reduce hqty] at hrB
      omega
  · obtain ⟨ackA, hrA, eA⟩ := OrderBook.submit_slice_rejected ht i q a
    obtain ⟨ackB, hrB, eB⟩ := OrderBook.submit_slice_rejected ht j r b
    obtain ⟨ackC, hrC, eC⟩ := OrderBook.submit_slice_rejected ht k t (a + b)
    refine ⟨ackA, ackB, ackC, [], [], [], book, book, eA, eB, eC, rfl, ?_⟩
    rw [hrA, hrB, hrC]
    rfl

/-- a bid of seven for two asks of five, cut inside the second ask -/
theorem split_taker_bid :
    ∃ book ackA ackB ackC fillsA fillsB fillsC book₁ book₂,
      (OrderBook.new [65]).run [.submit askTen, .submit askNine] = some book ∧
      book.submit (bidTen.slice 3 0 6) [] = some (ackA, fillsA, book₁) ∧
      book₁.submit (bidTen.slice 4 0 1) [] = some (ackB, fillsB, book₂) ∧
      book.submit (bidTen.slice 5 0 (6 + 1)) [] = some (ackC, fillsC, book₂) ∧
      merge ((fillsA ++ fillsB).map Fill.traded) = fillsC.map Fill.traded := by
  have hlive : (((OrderBook.new [65]).run [.submit askTen, .submit askNine]).map fun book =>
      (book.live.lookup 3, book.live.lookup 4, book.live.lookup 5)) = some (none, none, none) := by
    decide +kernel
  obtain ⟨book, hrun, hl⟩ := Option.map_eq_some_iff.mp hlive
  obtain ⟨h3, h45⟩ := Prod.mk.inj hl
  obtain ⟨h4, h5⟩ := Prod.mk.inj h45
  obtain ⟨ackA, ackB, ackC, fillsA, fillsB, fillsC, book₁, book₂, eA, eB, eC, hm, _⟩ :=
    split_taker [65] _ book hrun bidTen 6 1 (by decide) (by decide) (by decide) 3 4 5
      ⟨by decide, h3⟩ ⟨by decide, h4⟩ ⟨by decide, h5⟩ 0 0 0
  exact ⟨book, ackA, ackB, ackC, fillsA, fillsB, fillsC, book₁, book₂, hrun, eA, eB, eC, hm⟩

/-- the id `0` is never live, but a slice with it is rejected, and the ask keeps its two -/
theorem split_with_zero_id :
    ∃ book ackA ackB ackC fillsA fillsB fillsC book₁ book₂ book₃,
      (OrderBook.new [65]).run [.submit askTen] = some book ∧
      book.live.lookup 0 = none ∧ book.live.lookup 3 = none ∧ book.live.lookup 4 = none ∧
      book.submit (bidTen.slice 0 0 2) [] = some (ackA, fillsA, book₁) ∧
      book₁.submit (bidTen.slice 3 0 3) [] = some (ackB, fillsB, book₂) ∧
      book.submit (bidTen.slice 4 0 (2 + 3)) [] = some (ackC, fillsC, book₃) ∧
      book₂.orders .sell = [{ askTen with quantity := 2 }] ∧ book₃.orders .sell = [] := by
  have hall : (((OrderBook.new [65]).run [.submit askTen]).bind fun book =>
      (book.submit (bidTen.slice 0 0 2) []).bind fun x =>
      (x.2.2.submit (bidTen.slice 3 0 3) []).bind fun y =>
      (book.submit (bidTen.slice 4 0 (2 + 3)) []).map fun z =>
        (book.live.lookup 0, book.live.lookup 3, book.live.lookup 4, y.2.2.orders .sell,
          z.2.2.orders .sell))
      = some (none, none, none, [{ askTen with quantity := 2 }], []) := by decide +kernel
  obtain ⟨book, hrun, h⟩ := Option.bind_eq_some_iff.mp hall
  obtain ⟨⟨ackA, fillsA, book₁⟩, eA, h⟩ := Option.bind_eq_some_iff.mp h
  obtain ⟨⟨ackB, fillsB, book₂⟩, eB, h⟩ := Option.bind_eq_some_iff.mp h
  obtain ⟨⟨ackC, fillsC, book₃⟩, eC, h⟩ := Option.map_eq_some_iff.mp h
  simp only [Prod.mk.injEq] at h
  obtain ⟨h0, h3, h4, h5, h6⟩ := h
  exact ⟨book, ackA, ackB, ackC, fillsA, fillsB, fillsC, book₁, book₂, book₃, hrun, h0, h3, h4,
    eA, eB, eC, h5, h6⟩

end Matching
