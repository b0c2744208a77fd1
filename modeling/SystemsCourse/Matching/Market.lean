import SystemsCourse.Lib.Stable
import SystemsCourse.Matching.Engine

/-!
# The engine as one list of resting orders

What the engine is for, without books, levels or an index: `Market` has the resting orders of all
symbols in order of arrival.  An order trades, as long as something of it remains, with the resting order
of the best price that crosses it, and among these with the one that arrived first (`bestMaker`).

A side of a book lists the orders of its symbol and side in a stable order by price (`Represents`), so the
first order of the first level is `bestMaker`.  `engine_refines_market`: every run of the engine gives the
answers of the market.
-/

set_option linter.unusedVariables false

namespace Matching
open Wire Family Greedy StableOrder

/-- the order may trade with the maker -/
def Order.TradesWith (order maker : Order) : Prop :=
  maker.symbol = order.symbol ∧ maker.side = order.side.opposite ∧
    order.crosses maker.priceTicks = true

instance (order : Order) : DecidablePred order.TradesWith :=
  fun _ => inferInstanceAs (Decidable (_ ∧ _ ∧ _))

/-- the maker of the best price that arrived first, with the orders before and after it -/
def bestMaker (order : Order) : List Order → Option (List Order × Order × List Order)
  | [] => none
  | o :: l =>
    match bestMaker order l with
    | none => if order.TradesWith o then some ([], o, l) else none
    | some (before, maker, after) =>
      if order.TradesWith o ∧ ¬ order.side.opposite.better maker.priceTicks o.priceTicks then
        some ([], o, l)
      else some (o :: before, maker, after)

theorem bestMaker_some {order : Order} {l before after : List Order} {maker : Order}
    (h : bestMaker order l = some (before, maker, after)) :
    l = before ++ maker :: after ∧ order.TradesWith maker := by
  induction l generalizing before with
  | nil => cases h
  | cons o l ih =>
    rw [bestMaker] at h
    split at h
    · split at h
      · rename_i ho
        cases h
        exact ⟨rfl, ho⟩
      · cases h
    · rename_i hl
      split at h
      · rename_i ho
        cases h
        exact ⟨rfl, ho.1⟩
      · cases h
        obtain ⟨e, hm⟩ := ih hl
        exact ⟨by rw [e, List.cons_append], hm⟩

theorem bestMaker_none {order : Order} {l : List Order} (h : ∀ o ∈ l, ¬ order.TradesWith o) :
    bestMaker order l = none := by
  cases hb : bestMaker order l with
  | none => rfl
  | some r =>
    obtain ⟨e, hm⟩ := bestMaker_some hb
    exact absurd hm (h r.2.1 (by rw [e]; exact List.mem_append_right _ List.mem_cons_self))

theorem bestMaker_eq {order : Order} {before after : List Order} {maker : Order}
    (hm : order.TradesWith maker)
    (hbefore : ∀ o ∈ before, order.TradesWith o →
      order.side.opposite.better maker.priceTicks o.priceTicks)
    (hafter : ∀ o ∈ after, order.TradesWith o →
      ¬ order.side.opposite.better o.priceTicks maker.priceTicks) :
    bestMaker order (before ++ maker :: after) = some (before, maker, after) := by
  induction before with
  | nil =>
    rw [List.nil_append, bestMaker]
    cases hb : bestMaker order after with
    | none => exact if_pos hm
    | some r =>
      obtain ⟨e, hr⟩ := bestMaker_some hb
      refine if_pos ⟨hm, hafter r.2.1 ?_ hr⟩
      rw [e]
      exact List.mem_append_right _ List.mem_cons_self
  | cons o before ih =>
    obtain ⟨ho, hbefore⟩ := List.forall_mem_cons.mp hbefore
    rw [List.cons_append, bestMaker, ih hbefore]
    exact if_neg fun hc => hc.2 (ho hc.1)

structure Trade where
  resting : List Order
  remaining : ℕ
  fills : List Fill

/-- trade with the best maker as long as something remains -/
def trade (order : Order) (resting : List Order) (remaining : ℕ) : Trade :=
  if remaining = 0 then ⟨resting, 0, []⟩
  else
    match h : bestMaker order resting with
    | none => ⟨resting, remaining, []⟩
    | some (before, maker, after) =>
      if maker.qty ≤ remaining then
        let r := trade order (before ++ after) (remaining - maker.qty)
        { r with fills := order.fill maker maker.quantity :: r.fills }
      else
        ⟨before ++ maker.reduce remaining :: after, 0, [order.fill maker (UInt64.ofNat remaining)]⟩
termination_by resting.length
decreasing_by
  rw [(bestMaker_some h).1, List.length_append, List.length_append, List.length_cons]
  omega

structure Market where
  resting : List Order
  next : UInt64

namespace Market

def new : Market := ⟨[], 1⟩

/-- what rests of an order -/
def rested (order : Order) (remaining : ℕ) : List Order :=
  if 0 < remaining ∧ order.tif = .goodTillCancel then
    [{ order with quantity := UInt64.ofNat remaining }]
  else []

/-- an order, already with its sequence number, meets the resting orders -/
def enter (resting : List Order) (order : Order) : Outcome × List Order :=
  if order.id = 0 ∨ order.quantity = 0 ∨ order.priceTicks ≤ 0 then
    (.ack ⟨order.id, false, 0, ascii "invalid order"⟩ [], resting)
  else if ∃ o ∈ resting, o.symbol = order.symbol ∧ o.id = order.id then
    (.ack ⟨order.id, false, 0, ascii "duplicate live order id"⟩ [], resting)
  else
    let r := trade order resting order.qty
    (.ack ⟨order.id, true, UInt64.ofNat r.remaining, ascii "accepted"⟩ r.fills,
      r.resting ++ rested order r.remaining)

def withdraw (resting : List Order) (symbol : Bytes) (id : UInt64) : Outcome × List Order :=
  (.cancelled (decide (∃ o ∈ resting, o.symbol = symbol ∧ o.id = id)),
    resting.filter fun o => ¬ (o.symbol = symbol ∧ o.id = id))

def submit (market : Market) (order : Order) : Outcome × Market :=
  let r := enter market.resting (MatchingEngine.stamp market.next order)
  (r.1, ⟨r.2, MatchingEngine.nextAfter market.next order⟩)

def cancel (market : Market) (symbol : Bytes) (id : UInt64) : Outcome × Market :=
  let r := withdraw market.resting symbol id
  (r.1, { market with resting := r.2 })

def perform (market : Market) : Call → Option ((Bytes × Outcome) × Market)
  | .submit order => some ((order.symbol, (market.submit order).1), (market.submit order).2)
  | .cancel symbol id => some ((symbol, (market.cancel symbol id).1), (market.cancel symbol id).2)

end Market

/-- the orders of one side of a symbol -/
def sideOf (symbol : Bytes) (s : Side) (resting : List Order) : List Order :=
  resting.filter fun o => o.symbol = symbol ∧ o.side = s

theorem sideOf_append (symbol : Bytes) (s : Side) (a b : List Order) :
    sideOf symbol s (a ++ b) = sideOf symbol s a ++ sideOf symbol s b := List.filter_append ..

theorem mem_sideOf {symbol : Bytes} {s : Side} {resting : List Order} {o : Order} :
    o ∈ sideOf symbol s resting ↔ o ∈ resting ∧ o.symbol = symbol ∧ o.side = s := by
  rw [sideOf, List.mem_filter, decide_eq_true_eq]

/-- an order of another symbol or side does not matter -/
theorem sideOf_middle {symbol : Bytes} {s : Side} {o : Order} (h : ¬ (o.symbol = symbol ∧ o.side = s))
    (a b : List Order) : sideOf symbol s (a ++ o :: b) = sideOf symbol s (a ++ b) := by
  rw [sideOf_append, sideOf_append]
  congr 1
  exact List.filter_cons_of_neg (by simpa using h)

theorem sideOf_middle_self {symbol : Bytes} {s : Side} {o : Order} (h : o.symbol = symbol ∧ o.side = s)
    (a b : List Order) :
    sideOf symbol s (a ++ o :: b) = sideOf symbol s a ++ o :: sideOf symbol s b := by
  rw [sideOf_append]
  congr 1
  exact List.filter_cons_of_pos (by simpa using h)

theorem sideOf_rested {symbol : Bytes} {s : Side} {order : Order}
    (h : ¬ (order.symbol = symbol ∧ order.side = s)) (remaining : ℕ) :
    sideOf symbol s (Market.rested order remaining) = [] := by
  unfold Market.rested
  split
  · exact List.filter_cons_of_neg (by simpa using h)
  · rfl

theorem Side.opposite_ne (s : Side) : s.opposite ≠ s := by cases s <;> exact nofun

theorem Side.better_asymm {s : Side} {a b : Int64} (h : s.better a b) : ¬ s.better b a :=
  fun h' => s.better_irrefl a (IsTrans.trans _ _ _ h h')

/-- the orders of a side of the book, as the market has them -/
abbrev Lists (s : Side) : List Order → List Order → Prop := Stable Order.priceTicks s.better

/-- the first of the orders that cross is the best maker -/
theorem Lists.split {order : Order} {resting : List Order} {a : Order} {r : List Order}
    (h : Lists order.side.opposite (sideOf order.symbol order.side.opposite resting) (a :: r))
    (ha : order.crosses a.priceTicks = true) :
    ∃ before after, resting = before ++ a :: after ∧
      bestMaker order resting = some (before, a, after) ∧ order.TradesWith a ∧
      ∀ x ∈ sideOf order.symbol order.side.opposite before, x.priceTicks ≠ a.priceTicks := by
  obtain ⟨A, B, e, hA, hB⟩ := h.head
  obtain ⟨before, rest, rfl, hbefore, hrest⟩ := List.filter_eq_append_iff.mp e
  obtain ⟨skipped, after, rfl, hskipped, hmem, hafter⟩ := List.filter_eq_cons_iff.mp hrest
  have htrades : order.TradesWith a := by
    have := of_decide_eq_true hmem
    exact ⟨this.1, this.2, ha⟩
  have hin : ∀ x ∈ before ++ skipped, order.TradesWith x → x ∈ A := by
    intro x hx ht
    rcases List.mem_append.mp hx with hx | hx
    · rw [← hbefore]
      exact mem_sideOf.mpr ⟨hx, ht.1, ht.2.1⟩
    · exact absurd (decide_eq_true ⟨ht.1, ht.2.1⟩) (hskipped x hx)
  refine ⟨before ++ skipped, after, by rw [List.append_assoc], ?_, htrades, fun x hx => ?_⟩
  · rw [← List.append_assoc]
    refine bestMaker_eq htrades (fun x hx ht => (hA x (hin x hx ht)).2) fun x hx ht => ?_
    have hxB : x ∈ B := by
      rw [← hafter]
      exact mem_sideOf.mpr ⟨hx, ht.1, ht.2.1⟩
    rcases hB x hxB with hk | hlt
    · rw [← hk]
      exact Side.better_irrefl _ _
    · exact Side.better_asymm hlt
  · obtain ⟨hx, hside⟩ := mem_sideOf.mp hx
    rcases List.mem_append.mp hx with hx | hx
    · refine (hA x ?_).1
      rw [← hbefore]
      exact mem_sideOf.mpr ⟨hx, hside⟩
    · exact absurd (decide_eq_true hside) (hskipped x hx)

/-! ## one submission -/

theorem trade_zero (order : Order) (resting : List Order) :
    trade order resting 0 = ⟨resting, 0, []⟩ := by
  rw [trade, if_pos rfl]

theorem trade_stop {order : Order} {resting : List Order} (h : bestMaker order resting = none)
    (remaining : ℕ) : trade order resting remaining = ⟨resting, remaining, []⟩ := by
  rw [trade]
  split
  · rename_i h0
    rw [h0]
  · split
    · rfl
    · rename_i hs
      rw [h] at hs
      cases hs

theorem trade_best {order maker : Order} {resting before after : List Order}
    (h : bestMaker order resting = some (before, maker, after)) {remaining : ℕ} (hr : remaining ≠ 0) :
    trade order resting remaining =
      if maker.qty ≤ remaining then
        { trade order (before ++ after) (remaining - maker.qty) with
          fills := order.fill maker maker.quantity ::
            (trade order (before ++ after) (remaining - maker.qty)).fills }
      else
        ⟨before ++ maker.reduce remaining :: after, 0, [order.fill maker (UInt64.ofNat remaining)]⟩ := by
  rw [trade, if_neg hr]
  split
  · rename_i hs
    rw [h] at hs
    cases hs
  · rename_i hs
    rw [h] at hs
    cases hs
    rfl

/-- the trades of an order with the market are those with the side `X ++ Y` of the book, where the orders
of `X` cross and those of `Y` do not; the other sides stay -/
theorem trade_spec (order : Order) (remaining : ℕ) {X Y resting : List Order}
    (h : Lists order.side.opposite (sideOf order.symbol order.side.opposite resting) (X ++ Y))
    (hX : ∀ o ∈ X, order.crosses o.priceTicks = true)
    (hY : ∀ o ∈ Y, order.crosses o.priceTicks = false) :
    (trade order resting remaining).fills = order.fills (taken Order.qty remaining X) ∧
      (trade order resting remaining).remaining = remaining - total Order.qty X ∧
      Lists order.side.opposite
        (sideOf order.symbol order.side.opposite (trade order resting remaining).resting)
        (left Order.qty Order.reduce remaining X ++ Y) ∧
      ∀ symbol s, ¬ (order.symbol = symbol ∧ order.side.opposite = s) →
        sideOf symbol s (trade order resting remaining).resting = sideOf symbol s resting := by
  induction X generalizing resting remaining with
  | nil =>
    have hnone : bestMaker order resting = none := by
      refine bestMaker_none fun o ho ht => ?_
      have hmem : o ∈ Y := (h.mem_iff o).mpr (mem_sideOf.mpr ⟨ho, ht.1, ht.2.1⟩)
      exact Bool.false_ne_true ((hY o hmem).symm.trans ht.2.2)
    rw [trade_stop hnone]
    exact ⟨rfl, rfl, h, fun _ _ _ => rfl⟩
  | cons a X ih =>
    by_cases hr : remaining = 0
    · subst hr
      rw [trade_zero, taken_zero, left_zero, Nat.zero_sub]
      exact ⟨rfl, rfl, h, fun _ _ _ => rfl⟩
    obtain ⟨ha, hX⟩ := List.forall_mem_cons.mp hX
    rw [List.cons_append] at h
    obtain ⟨before, after, rfl, hbest, htrades, hbefore⟩ := h.split ha
    have hside : a.symbol = order.symbol ∧ a.side = order.side.opposite := ⟨htrades.1, htrades.2.1⟩
    have hother : ∀ symbol s, ¬ (order.symbol = symbol ∧ order.side.opposite = s) →
        ¬ (a.symbol = symbol ∧ a.side = s) := by
      rw [hside.1, hside.2]
      exact fun _ _ hne => hne
    rw [sideOf_middle_self hside] at h
    have hrest := h.tail hbefore
    rw [trade_best hbest hr]
    by_cases hq : a.qty ≤ remaining
    · -- the maker leaves, and the order goes on
      rw [if_pos hq, taken_all _ _ hr hq, left_all _ _ _ hr hq, total_cons]
      rw [← sideOf_append] at hrest
      obtain ⟨hfills, hrem, hlists, hsame⟩ := ih (remaining - a.qty) hrest hX
      refine ⟨?_, by rw [hrem, Nat.sub_sub], hlists, fun symbol s hne => ?_⟩
      · rw [hfills, Order.fills, Order.fills, List.map_cons]
        dsimp only
        rw [show UInt64.ofNat a.qty = a.quantity from UInt64.ofNat_toNat]
      · rw [sideOf_middle (hother symbol s hne)]
        exact hsame symbol s hne
    · -- the maker keeps its place with what is left of it
      rw [if_neg hq, taken_part _ _ hr hq, left_part _ _ _ hr hq, total_cons]
      refine ⟨rfl, by dsimp only; omega, ?_, fun symbol s hne => ?_⟩
      · dsimp only
        rw [sideOf_middle_self (o := a.reduce remaining) hside, List.cons_append]
        exact hrest.cons hbefore (List.pairwise_cons.mp h.sorted).1
      · dsimp only
        rw [sideOf_middle (o := a.reduce remaining) (hother symbol s hne),
          sideOf_middle (hother symbol s hne)]

/-! ## the book of a symbol -/

/-- the book has the orders of its symbol -/
structure OrderBook.Shows (symbol : Bytes) (resting : List Order) (book : OrderBook) : Prop where
  keeps : book.InvFor symbol
  lists : ∀ s, Lists s (sideOf symbol s resting) (book.orders s)

namespace OrderBook.Shows

variable {symbol : Bytes} {resting : List Order} {book : OrderBook}

theorem live_iff (h : book.Shows symbol resting) (id : UInt64) :
    book.live.lookup id ≠ none ↔ ∃ o ∈ resting, o.symbol = symbol ∧ o.id = id := by
  rw [Option.ne_none_iff_exists']
  constructor
  · rintro ⟨s, hs⟩
    obtain ⟨o, ho, hid⟩ := List.mem_map.mp ((h.keeps.inv.indexed.lookup id s).mp hs)
    obtain ⟨ho, hsym, -⟩ := mem_sideOf.mp (((h.lists s).mem_iff o).mp ho)
    exact ⟨o, ho, hsym, hid⟩
  · rintro ⟨o, ho, hsym, rfl⟩
    refine ⟨o.side, (h.keeps.inv.indexed.lookup _ _).mpr (List.mem_map_of_mem ?_)⟩
    exact ((h.lists o.side).mem_iff o).mpr (mem_sideOf.mpr ⟨ho, hsym, rfl⟩)

/-- an order is entered -/
theorem enter (h : book.Shows symbol resting) {order : Order} (hsym : order.symbol = symbol) :
    ∃ book', book.perform (.submit order) = some ((Market.enter resting order).1, book') ∧
      book'.Shows symbol (Market.enter resting order).2 ∧
      ∀ symbol', symbol' ≠ symbol → ∀ s,
        sideOf symbol' s (Market.enter resting order).2 = sideOf symbol' s resting := by
  have hbook : order.symbol = book.symbol := hsym.trans h.keeps.symbol.symm
  have hlive := h.live_iff order.id
  rw [← hsym] at hlive
  unfold Market.enter
  by_cases hinvalid : order.id = 0 ∨ order.quantity = 0 ∨ order.priceTicks ≤ 0
  · rw [if_pos hinvalid]
    refine ⟨book, ?_, h, fun _ _ _ => rfl⟩
    rw [perform, submit, if_neg (not_not.mpr hbook), if_pos hinvalid]
    rfl
  rw [if_neg hinvalid]
  by_cases hdup : ∃ o ∈ resting, o.symbol = order.symbol ∧ o.id = order.id
  · rw [if_pos hdup]
    refine ⟨book, ?_, h, fun _ _ _ => rfl⟩
    rw [perform, submit, if_neg (not_not.mpr hbook), if_neg hinvalid,
      if_pos (Option.isSome_iff_ne_none.mpr (hlive.mpr hdup))]
    rfl
  rw [if_neg hdup]
  dsimp only
  have haccepts : book.Accepts order := by
    refine ⟨hbook, fun e => hinvalid (.inl e), fun e => hinvalid (.inr (.inl e)), ?_, ?_⟩
    · exact Int64.not_le.mp fun hle => hinvalid (.inr (.inr hle))
    · exact not_not.mp fun hne => hdup (hlive.mp hne)
  obtain ⟨remaining, book', hsubmit, hrem, hinv, hsym', hopp, hown⟩ :=
    submit_accepted h.keeps.inv order [] haccepts
  have hlists := h.lists order.side.opposite
  rw [← h.keeps.inv.makers_append_others order, ← hsym] at hlists
  obtain ⟨hfills, hleft, hstable, hsame⟩ := trade_spec order order.qty hlists
    (fun o hm => (List.mem_filter.mp hm).2) (fun o hm => by simpa using (List.mem_filter.mp hm).2)
  have hremaining : UInt64.ofNat (trade order resting order.qty).remaining = remaining := by
    rw [hleft, ← hrem, UInt64.ofNat_toNat]
  have hrested : Market.rested order (trade order resting order.qty).remaining =
      if 0 < remaining ∧ order.tif = .goodTillCancel then [{ order with quantity := remaining }]
      else [] := by
    rw [Market.rested, hremaining, hleft, ← hrem]
    exact if_congr (and_congr_left' (UInt64.lt_iff_toNat_lt (a := 0)).symm) rfl rfl
  refine ⟨book', ?_, ⟨⟨hinv, hsym'.trans h.keeps.symbol⟩, fun s => ?_⟩, fun symbol' hne s => ?_⟩
  · rw [perform, hsubmit, hremaining, hfills]
    rfl
  · rw [sideOf_append]
    rcases order.side.eq_or_opposite s with rfl | rfl
    · -- the own side: what remains of the order arrives last
      rw [hsame symbol order.side fun hc => order.side.opposite_ne hc.2, hrested]
      have hlists := h.lists order.side
      by_cases hrest : 0 < remaining ∧ order.tif = .goodTillCancel
      · rw [if_pos hrest] at hown ⊢
        obtain ⟨C, D, e, e', hC, hD⟩ := hown
        rw [e] at hlists
        have hlast : sideOf symbol order.side [{ order with quantity := remaining }]
            = [{ order with quantity := remaining }] :=
          List.filter_cons_of_pos (by simpa using hsym)
        rw [hlast, e']
        exact hlists.concat hC hD (Side.better_irrefl _)
      · rw [if_neg hrest] at hown ⊢
        have hnil : sideOf symbol order.side [] = [] := rfl
        rw [hnil, List.append_nil, hown]
        exact hlists
    · rw [sideOf_rested fun hc => order.side.opposite_ne hc.2.symm, List.append_nil, hopp, ← hsym]
      exact hstable
  · rw [sideOf_append, hsame symbol' s fun hc => hne (hc.1.symm.trans hsym),
      sideOf_rested fun hc => hne (hc.1.symm.trans hsym), List.append_nil]

/-- a list without the order that has the id -/
theorem filter_id_eq {A B : List Order} {o : Order} (hnodup : ((A ++ o :: B).map Order.id).Nodup) :
    (A ++ o :: B).filter (fun x => x.id ≠ o.id) = A ++ B := by
  rw [List.map_append, List.map_cons, List.nodup_middle, List.nodup_cons, List.mem_append] at hnodup
  have hkeep : ∀ l : List Order, o.id ∉ l.map Order.id → l.filter (fun x => x.id ≠ o.id) = l := by
    intro l hl
    refine List.filter_eq_self.mpr fun x hx => decide_eq_true fun e => hl ?_
    rw [← e]
    exact List.mem_map_of_mem hx
  rw [List.filter_append, List.filter_cons_of_neg (by simp), hkeep A fun hA => hnodup.1 (.inl hA),
    hkeep B fun hB => hnodup.1 (.inr hB)]

/-- an order is withdrawn -/
theorem withdraw (h : book.Shows symbol resting) (id : UInt64) :
    ∃ book', book.perform (.cancel id) = some ((Market.withdraw resting symbol id).1, book') ∧
      book'.Shows symbol (Market.withdraw resting symbol id).2 ∧
      ∀ symbol', symbol' ≠ symbol → ∀ s,
        sideOf symbol' s (Market.withdraw resting symbol id).2 = sideOf symbol' s resting := by
  have hlive := h.live_iff id
  have hsame : ∀ symbol', symbol' ≠ symbol → ∀ s,
      sideOf symbol' s (Market.withdraw resting symbol id).2 = sideOf symbol' s resting := by
    intro symbol' hne s
    unfold Market.withdraw sideOf
    rw [List.filter_filter]
    refine List.filter_congr fun o ho => ?_
    by_cases hsym : o.symbol = symbol'
    · simp [hsym, hne]
    · simp [hsym]
  have hown : ∀ s, sideOf symbol s (Market.withdraw resting symbol id).2
      = (sideOf symbol s resting).filter fun o => o.id ≠ id := by
    intro s
    unfold Market.withdraw sideOf
    rw [List.filter_filter, List.filter_filter]
    refine List.filter_congr fun o ho => ?_
    by_cases hsym : o.symbol = symbol <;> simp [hsym, Bool.and_comm]
  have hstable : ∀ s, Lists s (sideOf symbol s (Market.withdraw resting symbol id).2)
      ((book.orders s).filter fun o => o.id ≠ id) := by
    intro s
    rw [hown]
    exact (h.lists s).filter _
  have hkeep : ∀ s, id ∉ book.ids s → (book.orders s).filter (fun o => o.id ≠ id) = book.orders s := by
    intro s hid
    refine List.filter_eq_self.mpr fun o ho => decide_eq_true fun e => hid ?_
    rw [← e]
    exact List.mem_map_of_mem ho
  cases hl : book.live.lookup id with
  | none =>
    refine ⟨book, ?_, ⟨h.keeps, fun s => ?_⟩, hsame⟩
    · rw [perform, cancel_dead hl, Market.withdraw, decide_eq_false fun hc => hlive.mpr hc hl]
    · rw [← hkeep s (h.keeps.inv.indexed.notMem hl s)]
      exact hstable s
  | some s =>
    obtain ⟨-, A, o, B, book', e, rfl, hcancel, hinv, hsym, e', hopp⟩ := cancel_live h.keeps.inv hl
    refine ⟨book', ?_, ⟨⟨hinv, hsym.trans h.keeps.symbol⟩, fun s' => ?_⟩, hsame⟩
    · rw [perform, hcancel, Market.withdraw, decide_eq_true (hlive.mp (by simp [hl]))]
    · have hids := h.keeps.inv.indexed
      rcases s.eq_or_opposite s' with rfl | rfl
      · have hnodup := hids.nodup s'
        rw [ids, e] at hnodup
        rw [e', ← filter_id_eq hnodup, ← e]
        exact hstable s'
      · have hmem : o.id ∈ book.ids s := (hids.lookup o.id s).mp hl
        rw [hopp, ← hkeep _ fun hc => hids.disjoint s hmem hc]
        exact hstable s.opposite

end OrderBook.Shows

/-! ## the engine -/

structure Represents (engine : MatchingEngine) (market : Market) : Prop where
  next : market.next = engine.nextSequence
  shows : ∀ symbol, (engine.bookOf symbol).Shows symbol market.resting

/-- the other books do not see a call -/
theorem shows_update {books : Bytes → OrderBook} {resting resting' : List Order}
    (h : ∀ symbol, (books symbol).Shows symbol resting) {symbol : Bytes} {book' : OrderBook}
    (hbook : book'.Shows symbol resting')
    (hother : ∀ symbol', symbol' ≠ symbol → ∀ s, sideOf symbol' s resting' = sideOf symbol' s resting)
    (symbol' : Bytes) : (Function.update books symbol book' symbol').Shows symbol' resting' := by
  by_cases hs : symbol' = symbol
  · subst hs
    rw [Function.update_self]
    exact hbook
  · rw [Function.update_of_ne hs]
    refine ⟨(h symbol').keeps, fun s => ?_⟩
    rw [hother symbol' hs]
    exact (h symbol').lists s

theorem Represents.perform {engine : MatchingEngine} {market : Market} (h : Represents engine market)
    (call : Call) :
    Option.Rel (fun x y => y.1 = x.1 ∧ Represents x.2 y.2) (engine.perform call)
      (market.perform call) := by
  cases call with
  | submit order =>
    have hsym := MatchingEngine.stamp_symbol engine.nextSequence order
    obtain ⟨book', hperform, hbook, hother⟩ := (h.shows order.symbol).enter hsym
    have hfamily : stepFamily OrderBook.perform engine.bookOf
        ((Call.submit order).stamped engine.nextSequence) = _ := stepFamily_some hperform
    obtain ⟨engine', he, hbooks, hnext⟩ := MatchingEngine.perform_family hfamily
    rw [he, Market.perform, Market.submit, h.next]
    refine .some ⟨rfl, hnext.symm, ?_⟩
    rw [hbooks]
    exact shows_update h.shows hbook hother
  | cancel symbol id =>
    obtain ⟨book', hperform, hbook, hother⟩ := (h.shows symbol).withdraw id
    have hfamily : stepFamily OrderBook.perform engine.bookOf
        ((Call.cancel symbol id).stamped engine.nextSequence) = _ := stepFamily_some hperform
    obtain ⟨engine', he, hbooks, hnext⟩ := MatchingEngine.perform_family hfamily
    rw [he, Market.perform, Market.cancel]
    refine .some ⟨rfl, h.next.trans hnext.symm, ?_⟩
    rw [hbooks]
    exact shows_update h.shows hbook hother

theorem prepared_represents (symbols : List Bytes) :
    Represents (MatchingEngine.prepared symbols) Market.new := by
  obtain ⟨hbooks, hnext⟩ := MatchingEngine.bookOf_prepared symbols
  refine ⟨hnext.symm, fun symbol => ⟨MatchingEngine.prepared_books symbols symbol, fun s => ?_⟩⟩
  rw [hbooks, OrderBook.orders_new]
  exact .nil

/-- the engine answers as the market does, and then it represents it -/
theorem run_represents (symbols : List Bytes) (calls : List Call) :
    ∃ log engine market,
      run MatchingEngine.perform (MatchingEngine.prepared symbols) calls = some (log, engine) ∧
      run Market.perform Market.new calls = some (log, market) ∧ Represents engine market := by
  have hstep : ∀ engine market call, Represents engine market →
      Option.Rel (fun x y => y.1 = id x.1 ∧ Represents x.2 y.2) (engine.perform call)
        (market.perform (id call)) := fun engine market call h => h.perform call
  have hrel := run_rel hstep (prepared_represents symbols) calls
  rw [List.map_id] at hrel
  obtain ⟨log, engine, he, -⟩ := MatchingEngine.run_books symbols calls
  rw [he] at hrel
  generalize hm : run Market.perform Market.new calls = result at hrel
  cases hrel with
  | @some _ y h =>
    obtain ⟨log', market⟩ := y
    obtain ⟨hlog, hrep⟩ := h
    rw [List.map_id] at hlog
    cases hlog
    exact ⟨log, engine, market, he, rfl, hrep⟩

/-- **The engine refines the market.**  Whatever is submitted and cancelled, and for whichever symbols the
engine was prepared: it answers each call as the market does, with the same acknowledgements and the same
fills.  At the end a book has, on each side, the orders that the market has for it, better prices first
and in each price in order of arrival. -/
theorem engine_refines_market (symbols : List Bytes) (calls : List Call) :
    ∃ log engine market,
      run MatchingEngine.perform (MatchingEngine.prepared symbols) calls = some (log, engine) ∧
      run Market.perform Market.new calls = some (log, market) ∧
      market.next = engine.nextSequence ∧
      ∀ symbol s,
        ((engine.bookOf symbol).orders s).Pairwise (fun x y =>
          x.priceTicks = y.priceTicks ∨ s.better x.priceTicks y.priceTicks) ∧
        ∀ price, ((engine.bookOf symbol).orders s).filter (fun o => o.priceTicks = price)
          = market.resting.filter fun o => (o.symbol = symbol ∧ o.side = s) ∧ o.priceTicks = price := by
  obtain ⟨log, engine, market, he, hm, hrep⟩ := run_represents symbols calls
  refine ⟨log, engine, market, he, hm, hrep.next, fun symbol s => ?_⟩
  have hlists := (hrep.shows symbol).lists s
  refine ⟨hlists.sorted, fun price => (hlists.arrival price).trans ?_⟩
  rw [sideOf, List.filter_filter]
  exact List.filter_congr fun o _ => by simp [and_comm]

end Matching
