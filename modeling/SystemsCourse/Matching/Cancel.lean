import SystemsCourse.Matching.Priority

/-!
# Cancelling an order

A book that keeps the representation invariant is given by its symbol and its two lists of resting
orders (`OrderBook.Inv.ext`): the prices cut a list into levels in one way only (`Filed.ext`), and
`live_orders_` is the index of the lists.  So two runs that end with the same lists end with the
same book.

* `cancel_exact`    what `cancel` removes, and that the id is gone afterwards;
* `cancel_is_ioc`   a resting order that is cancelled at once leaves the book of an
                    immediate-or-cancel order.
-/

set_option linter.unusedVariables false

namespace Matching
open Wire Greedy

/-! ## the lists of orders determine the book -/

/-- a list is cut in one way into orders of the price `p` and orders of other prices -/
theorem append_inj_of_price {p : Int64} {os os' R R' : List Order}
    (hos : ∀ o ∈ os, o.priceTicks = p) (hos' : ∀ o ∈ os', o.priceTicks = p)
    (hR : ∀ o ∈ R, o.priceTicks ≠ p) (hR' : ∀ o ∈ R', o.priceTicks ≠ p)
    (h : os ++ R = os' ++ R') : os = os' ∧ R = R' := by
  have hfilter : ∀ a b : List Order, (∀ o ∈ a, o.priceTicks = p) → (∀ o ∈ b, o.priceTicks ≠ p) →
      (a ++ b).filter (fun o => o.priceTicks == p) = a := by
    intro a b ha hb
    rw [List.filter_append, List.filter_eq_self.mpr fun o ho => by simpa using ha o ho,
      List.filter_eq_nil_iff.mpr fun o ho => by simpa using hb o ho, List.append_nil]
  have he : os = os' := by
    rw [← hfilter os R hos hR, h, hfilter os' R' hos' hR']
  exact ⟨he, List.append_cancel_left (he ▸ h)⟩

section
variable {s : Side} {symbol : Bytes}

theorem entries_ext {es es' : List (Int64 × Level)}
    (hs : es.Pairwise fun a b => s.better a.1 b.1) (hs' : es'.Pairwise fun a b => s.better a.1 b.1)
    (hf : ∀ e ∈ es, e.2.orders ≠ [] ∧ ∀ o ∈ e.2.orders, o.Rests symbol s e.1)
    (hf' : ∀ e ∈ es', e.2.orders ≠ [] ∧ ∀ o ∈ e.2.orders, o.Rests symbol s e.1)
    (h : (es.flatMap fun e => e.2.orders) = es'.flatMap fun e => e.2.orders) : es = es' := by
  induction es generalizing es' with
  | nil =>
    cases es' with
    | nil => rfl
    | cons e es' =>
      rw [List.flatMap_nil, List.flatMap_cons] at h
      exact absurd (List.append_eq_nil_iff.mp h.symm).1 (hf' e (List.mem_cons_self ..)).1
  | cons e es ih =>
    obtain ⟨p, ⟨os⟩⟩ := e
    obtain ⟨hne, hos⟩ := hf (p, ⟨os⟩) (List.mem_cons_self ..)
    cases es' with
    | nil =>
      rw [List.flatMap_nil, List.flatMap_cons] at h
      exact absurd (List.append_eq_nil_iff.mp h).1 hne
    | cons e' es' =>
      obtain ⟨p', ⟨os'⟩⟩ := e'
      obtain ⟨hne', hos'⟩ := hf' (p', ⟨os'⟩) (List.mem_cons_self ..)
      rw [List.pairwise_cons] at hs hs'
      rw [List.flatMap_cons, List.flatMap_cons] at h
      dsimp only at hne hos hne' hos' h
      -- the two lists start with the same order, so the first levels have one price
      have hp : p = p' := by
        obtain ⟨a, t, rfl⟩ := List.exists_cons_of_ne_nil hne
        obtain ⟨a', t', rfl⟩ := List.exists_cons_of_ne_nil hne'
        have ha : a = a' := (List.cons.inj h).1
        rw [← (hos a (List.mem_cons_self ..)).price, ← (hos' a' (List.mem_cons_self ..)).price, ha]
      subst hp
      have hother : ∀ l : List (Int64 × Level), (∀ x ∈ l, s.better p x.1) →
          (∀ x ∈ l, x.2.orders ≠ [] ∧ ∀ o ∈ x.2.orders, o.Rests symbol s x.1) →
          ∀ o ∈ l.flatMap (fun x => x.2.orders), o.priceTicks ≠ p := by
        intro l hl hfl o ho hprice
        obtain ⟨x, hx, hox⟩ := List.mem_flatMap.mp ho
        have hb := hl x hx
        rw [← ((hfl x hx).2 o hox).price, hprice] at hb
        exact s.better_irrefl p hb
      have htail : ∀ x ∈ es, _ := fun x hx => hf x (List.mem_cons_of_mem _ hx)
      have htail' : ∀ x ∈ es', _ := fun x hx => hf' x (List.mem_cons_of_mem _ hx)
      obtain ⟨e1, e2⟩ := append_inj_of_price (fun o ho => (hos o ho).price)
        (fun o ho => (hos' o ho).price) (hother es hs.1 htail) (hother es' hs'.1 htail') h
      rw [e1, ih hs.2 hs'.2 htail htail' e2]

/-- the orders of a side determine its levels -/
theorem Filed.ext {levels levels' : Levels s} (hf : Filed symbol levels)
    (hf' : Filed symbol levels') (h : Levels.orders levels = Levels.orders levels') :
    levels = levels' :=
  OrdMap.ext (entries_ext levels.sorted levels'.sorted hf hf' h)

end

theorem Indexed.ext {live live' : Live} {ids : Side → List UInt64} (h : Indexed live ids)
    (h' : Indexed live' ids) : live = live' := by
  refine Finmap.ext_lookup fun id => Option.ext fun s => ?_
  rw [h.lookup, h'.lookup]

/-- **a book is given by its symbol and its resting orders** -/
theorem OrderBook.Inv.ext {a b : OrderBook} (ha : a.Inv) (hb : b.Inv) (hs : a.symbol = b.symbol)
    (ho : ∀ s, a.orders s = b.orders s) : a = b := by
  have hl : ∀ s, a.levels s = b.levels s := by
    intro s
    refine (ha.filed s).ext ?_ (ho s)
    rw [hs]
    exact hb.filed s
  have hids : b.ids = a.ids := by
    funext s
    rw [OrderBook.ids, OrderBook.ids, ho]
  have hlive : a.live = b.live := ha.indexed.ext (hids ▸ hb.indexed)
  obtain ⟨symbol, bids, asks, live⟩ := a
  obtain ⟨symbol', bids', asks', live'⟩ := b
  cases hs
  cases hlive
  cases hl .buy
  cases hl .sell
  rfl

/-! ## what `cancel` removes -/

namespace OrderBook

/-- an order with the id rests in the book -/
def Resting (book : OrderBook) (id : UInt64) : Prop := ∃ s, id ∈ book.ids s

theorem Inv.resting_iff {book : OrderBook} (h : book.Inv) (id : UInt64) :
    book.Resting id ↔ ∃ s, book.live.lookup id = some s :=
  exists_congr fun s => (h.indexed.lookup id s).symm

theorem Inv.cancel_iff {book : OrderBook} (h : book.Inv) (id : UInt64) :
    (book.cancel id).1 = true ↔ book.Resting id := by
  rw [h.resting_iff]
  cases hl : book.live.lookup id with
  | none =>
    rw [cancel_dead hl]
    simp
  | some s =>
    obtain ⟨_, A, o, B, book', _, _, e, _⟩ := cancel_live h hl
    rw [e]
    simp

/-- the levels after a `cancel` that found its order -/
theorem cancel_entries {book book' : OrderBook} {id : UInt64} (h : book.cancel id = (true, book')) :
    ∃ s pre p A o B post, (book.levels s).entries = pre ++ (p, ⟨A ++ o :: B⟩) :: post ∧ o.id = id ∧
      (book'.levels s).entries = pre ++ ((if A ++ B = [] then [] else [(p, ⟨A ++ B⟩)]) ++ post) ∧
      book'.levels s.opposite = book.levels s.opposite ∧ book'.live = book.live.erase id ∧
      book'.symbol = book.symbol := by
  unfold cancel at h
  split at h
  · cases h
  · rename_i s hl
    split at h
    · rename_i levels e
      cases h
      obtain ⟨pre, p, A, o, B, post, e1, hid, e2⟩ := removeOrder_entries e
      refine ⟨s, pre, p, A, o, B, post, e1, hid, ?_, levels_setLevels_opposite .., rfl,
        symbol_setLevels ..⟩
      rw [levels_setLevels, e2]
    · cases h

theorem cancel_false {book book' : OrderBook} {id : UInt64}
    (h : book.cancel id = (false, book')) : book' = book := by
  unfold cancel at h
  split at h
  · cases h
    rfl
  · split at h
    · cases h
    · cases h
      rfl

/-- the id is gone after a `cancel`, whatever it returned -/
theorem Inv.cancel_gone {book : OrderBook} (h : book.Inv) (id : UInt64) :
    (book.cancel id).2.Inv ∧ ¬ (book.cancel id).2.Resting id := by
  cases hl : book.live.lookup id with
  | none =>
    rw [cancel_dead hl]
    refine ⟨h, ?_⟩
    rintro ⟨s, hs⟩
    exact h.indexed.notMem hl s hs
  | some s =>
    obtain ⟨_, A, o, B, book', _, _, e, hinv, _⟩ := cancel_live h hl
    obtain ⟨_, _, _, _, _, _, _, _, _, _, _, hlive, _⟩ := cancel_entries e
    rw [e]
    refine ⟨hinv, ?_⟩
    rw [hinv.resting_iff, hlive, Finmap.lookup_erase]
    rintro ⟨s', hs'⟩
    cases hs'

/-! ## later calls -/

/-- an id that does not rest can only come back with a submission -/
theorem resting_step {book book' : OrderBook} (h : book.Inv) {op : Op} {id : UInt64}
    (e : book.step op = some book') (hid : ¬ book.Resting id)
    (hop : ∀ order, op = .submit order → book.Accepts order → order.id ≠ id) :
    ¬ book'.Resting id := by
  rintro ⟨s, hs⟩
  rcases side_step Order.id (fun _ _ => rfl) h e s with hsub | ⟨order, remaining, rfl, hv, _, hi⟩
  · exact hid ⟨s, hsub.subset hs⟩
  · obtain ⟨A, B, e1, e2, _⟩ := hi
    rw [ids, e2, List.map_append, List.map_cons, List.mem_append, List.mem_cons] at hs
    rcases hs with hs | hs | hs
    · exact hid ⟨s, by rw [ids, e1, List.map_append]; exact List.mem_append_left _ hs⟩
    · exact hop order rfl hv hs.symm
    · exact hid ⟨s, by rw [ids, e1, List.map_append]; exact List.mem_append_right _ hs⟩

/-- **an id that does not rest and is not accepted again** does not rest later -/
theorem resting_run (ops : List Op) {book last : OrderBook} (h : book.Inv) {id : UInt64}
    (hrun : book.run ops = some last) (hid : ¬ book.Resting id)
    (hnew : id ∉ book.arrivals ops) : last.Inv ∧ ¬ last.Resting id := by
  induction ops generalizing book with
  | nil =>
    cases hrun
    exact ⟨h, hid⟩
  | cons op ops ih =>
    obtain ⟨book', e, hinv, _⟩ := step_inv h op
    unfold run at hrun
    rw [e] at hrun
    cases op with
    | submit order =>
      obtain ⟨⟨ack, fills, book₁⟩, hs, hb⟩ := Option.map_eq_some_iff.mp e
      dsimp only at hb
      subst hb
      unfold arrivals at hnew
      rw [hs] at hnew
      dsimp only at hnew
      by_cases hv : book.Accepts order
      · obtain ⟨remaining, _, e', _⟩ := submit_accepted h order [] hv
        rw [hs] at e'
        cases e'
        rw [if_pos rfl, List.mem_cons, not_or] at hnew
        refine ih hinv hrun (resting_step h e hid ?_) hnew.2
        intro order' ho _
        cases ho
        exact fun hc => hnew.1 hc.symm
      · obtain ⟨ack', hack, e'⟩ := book.submit_rejected order [] hv
        rw [hs] at e'
        cases e'
        rw [hack, if_neg Bool.false_ne_true] at hnew
        exact ih hinv hrun hid hnew
    | cancel id' =>
      have hstep : book.step (.cancel id') = some (book.cancel id').2 := rfl
      rw [e] at hstep
      cases hstep
      refine ih hinv hrun (resting_step h e hid ?_) hnew
      intro order ho
      cases ho

/-- a fill has an order of the book as its maker -/
theorem maker_resting {book book' : OrderBook} (h : book.Inv) {order : Order} {fills : List Fill}
    {ack : Ack} (hs : book.submit order [] = some (ack, fills, book')) {f : Fill} (hf : f ∈ fills) :
    book.Resting f.makerId := by
  by_cases hv : book.Accepts order
  · obtain ⟨remaining, _, e, _⟩ := submit_accepted h order [] hv
    rw [hs] at e
    cases e
    have hm : f.makerId ∈ (order.fills (taken Order.qty order.qty (book.makers order))).map
        Fill.makerId := List.mem_map_of_mem hf
    rw [Order.fills_makerId] at hm
    obtain ⟨o, ho, hid⟩ := List.mem_map.mp hm
    have hmem := (taken_initial Order.qty order.qty (book.makers order)).subset ho
    exact ⟨_, List.mem_map.mpr ⟨o, (List.mem_filter.mp hmem).1, hid⟩⟩
  · obtain ⟨ack', _, e⟩ := book.submit_rejected order [] hv
    rw [hs] at e
    cases e
    cases hf

end OrderBook

/-- **`cancel` removes exactly one order.**  It returns `true` iff an order with the id rests; then
one order has left its level, which disappears if it was alone there, and all else is as before; if
not, the book is unchanged.  Whatever is called later, the id is the maker of a fill only if a
submission with it was accepted in between. -/
theorem cancel_exact (symbol : Bytes) (ops : List Op) (book : OrderBook)
    (hrun : (OrderBook.new symbol).run ops = some book) (id : UInt64) (found : Bool)
    (book' : OrderBook) (hc : book.cancel id = (found, book')) :
    (found = true ↔ ∃ s, ∃ o ∈ book.orders s, o.id = id) ∧
    (found = true →
      ∃ s pre p A o B post, (book.levels s).entries = pre ++ (p, ⟨A ++ o :: B⟩) :: post ∧
        o.id = id ∧
        (book'.levels s).entries
          = pre ++ ((if A ++ B = [] then [] else [(p, ⟨A ++ B⟩)]) ++ post) ∧
        book'.levels s.opposite = book.levels s.opposite ∧ book'.live = book.live.erase id ∧
        book'.symbol = book.symbol) ∧
    (found = false → book' = book) ∧
    ∀ later book₁ order ack fills book₂, book'.run later = some book₁ →
      book₁.submit order [] = some (ack, fills, book₂) →
      ∀ f ∈ fills, f.makerId = id → id ∈ book'.arrivals later := by
  have h := OrderBook.inv_of_run hrun
  refine ⟨?_, ?_, ?_, ?_⟩
  · have hiff := h.cancel_iff id
    rw [hc] at hiff
    rw [hiff]
    exact exists_congr fun s => List.mem_map
  · rintro rfl
    exact OrderBook.cancel_entries hc
  · rintro rfl
    exact OrderBook.cancel_false hc
  · intro later book₁ order ack fills book₂ hrun' hs f hf hid
    obtain ⟨hinv, hgone⟩ := h.cancel_gone id
    rw [hc] at hinv hgone
    by_contra hnew
    obtain ⟨h₁, hgone₁⟩ := OrderBook.resting_run later hinv hrun' hgone hnew
    exact hgone₁ (hid ▸ OrderBook.maker_resting h₁ hs hf)

/-- an ask is cancelled, and the bid that comes next trades with the other one only -/
theorem cancel_exact_ask :
    ∃ book book', (OrderBook.new [65]).run [.submit askTen, .submit askNine] = some book ∧
      book.cancel 2 = (true, book') ∧
      ∀ book₁ ack fills book₂, book'.run [] = some book₁ →
        book₁.submit bidTen [] = some (ack, fills, book₂) →
        ∀ f ∈ fills, f.makerId = 2 → (2 : UInt64) ∈ book'.arrivals [] := by
  obtain ⟨book, hrun, h, _⟩ := OrderBook.run_new [65] [.submit askTen, .submit askNine]
  have hcancel : (((OrderBook.new [65]).run [.submit askTen, .submit askNine]).map fun book =>
      (book.cancel 2).1) = some true := by decide +kernel
  rw [hrun] at hcancel
  have hc : book.cancel 2 = (true, (book.cancel 2).2) := Prod.ext (Option.some.inj hcancel) rfl
  obtain ⟨_, _, _, hlater⟩ := cancel_exact [65] _ book hrun 2 true _ hc
  exact ⟨book, _, hrun, hc, fun book₁ ack fills book₂ => hlater [] book₁ bidTen ack fills book₂⟩

/-! ## good-till-cancel and cancel -/

/-- a taker of which nothing rests makes no id live -/
theorem OrderBook.Inv.dead_after {book book' : OrderBook} (h : book.Inv) (h' : book'.Inv)
    {order : Order} {d : ℕ} (hown : book'.orders order.side = book.orders order.side)
    (hopp : book'.orders order.side.opposite
      = left Order.qty Order.reduce d (book.makers order) ++ book.others order)
    {id : UInt64} (hid : book.live.lookup id = none) : book'.live.lookup id = none := by
  cases hl : book'.live.lookup id with
  | none => rfl
  | some s =>
    exfalso
    have hs := (h'.indexed.lookup id s).mp hl
    rcases order.side.eq_or_opposite s with rfl | rfl
    · rw [OrderBook.ids, hown] at hs
      exact h.indexed.notMem hid _ hs
    · refine h.indexed.notMem hid order.side.opposite ?_
      rw [OrderBook.ids, ← h.makers_append_others order, List.map_append,
        ← gone_append_left Order.qty Order.reduce Order.id (fun _ _ => rfl) d, List.append_assoc,
        ← List.map_append, ← hopp]
      exact List.mem_append_right _ hs

section
variable {book : OrderBook} (h : book.Inv) {order : Order} (hv : book.Accepts order)
  {fills fills' : List Fill} {ack : Ack} {bookG : OrderBook}
  (hG : book.submit { order with tif := .goodTillCancel } fills = some (ack, fills', bookG))
include h hv hG

/-- the book after the `cancel` has the lists of an immediate-or-cancel order -/
theorem cancel_after_gtc :
    ∃ book', bookG.cancel order.id = (decide (0 < ack.remaining), book') ∧ book'.Inv ∧
      book'.symbol = book.symbol ∧
      book'.orders order.side.opposite
        = left Order.qty Order.reduce order.qty (book.makers order) ++ book.others order ∧
      book'.orders order.side = book.orders order.side := by
  obtain ⟨remaining, book₁, e, _, hinv, hsym, hopp, hown⟩ :=
    OrderBook.submit_accepted h { order with tif := .goodTillCancel } fills hv
  rw [hG] at e
  cases e
  by_cases hr : 0 < remaining
  · -- the remainder rests; it is the order that `cancel` finds
    rw [if_pos ⟨hr, rfl⟩] at hown
    obtain ⟨A', B', e1, e2, _⟩ := hown
    have hmem : order.id ∈ bookG.ids order.side := by
      rw [OrderBook.ids, e2]
      simp
    obtain ⟨_, A, o, B, book', e3, hid, e4, hinv', hsym', e5, e6⟩ :=
      OrderBook.cancel_live hinv ((hinv.indexed.lookup order.id order.side).mpr hmem)
    have hnodup := hinv.indexed.nodup order.side
    rw [OrderBook.ids, e3, List.map_append, List.map_cons] at hnodup
    have hne : ∀ x ∈ A ++ B, x.id ≠ o.id := by
      intro x hx hxo
      rw [List.nodup_middle, List.nodup_cons, ← List.map_append, ← hxo] at hnodup
      exact hnodup.1 (List.mem_map_of_mem hx)
    have hsame : A = A' ∧ o = { order with tif := .goodTillCancel, quantity := remaining } ∧
        B = B' := by
      refine (List.append_cons_inj_of_notMem ?_ ?_).mp (e3.symm.trans e2)
      · exact fun hx => hne _ (List.mem_append_left _ hx) hid.symm
      · exact fun hx => hne _ (List.mem_append_right _ hx) hid.symm
    obtain ⟨rfl, _, rfl⟩ := hsame
    refine ⟨book', ?_, hinv', hsym'.trans hsym, e6.trans hopp, e5.trans e1.symm⟩
    rw [e4, decide_eq_true hr]
  · -- nothing rests, and the id is not found
    rw [if_neg fun hc => hr hc.1] at hown
    have hdead : bookG.live.lookup order.id = none := h.dead_after hinv hown hopp hv.2.2.2.2
    refine ⟨bookG, ?_, hinv, hsym, hopp, hown⟩
    rw [OrderBook.cancel_dead hdead, decide_eq_false hr]

end

/-- **Good-till-cancel and `cancel` is immediate-or-cancel.**  For an order that `submit` accepts,
with either time in force: the two ways give the same acknowledgement, fills and book; `cancel`
finds the order iff something remained; and without a crossing order the book is the one before. -/
theorem cancel_is_ioc (symbol : Bytes) (ops : List Op) (book : OrderBook)
    (hrun : (OrderBook.new symbol).run ops = some book) (order : Order) (fills fills' : List Fill)
    (ack : Ack) (book' : OrderBook) (hs : book.submit order fills = some (ack, fills', book'))
    (ha : ack.accepted = true) :
    ∃ bookG bookI,
      book.submit { order with tif := .goodTillCancel } fills = some (ack, fills', bookG) ∧
      book.submit { order with tif := .immediateOrCancel } fills = some (ack, fills', bookI) ∧
      bookG.cancel order.id = (decide (0 < ack.remaining), bookI) ∧
      ((∀ o ∈ book.orders order.side.opposite, order.crosses o.priceTicks = false) →
        bookI = book) := by
  have h := OrderBook.inv_of_run hrun
  have hv := OrderBook.accepts_of_ack hs ha
  obtain ⟨r, _, e, hr, _⟩ := OrderBook.submit_accepted h order fills hv
  rw [hs] at e
  cases e
  obtain ⟨rG, bookG, eG, hrG, _⟩ :=
    OrderBook.submit_accepted h { order with tif := .goodTillCancel } fills hv
  obtain ⟨rI, bookI, eI, hrI, hinvI, hsymI, hoppI, hownI⟩ :=
    OrderBook.submit_accepted h { order with tif := .immediateOrCancel } fills hv
  cases UInt64.toNat.inj (hrG.trans hr.symm)
  cases UInt64.toNat.inj (hrI.trans hr.symm)
  rw [if_neg fun hc => by cases hc.2] at hownI
  obtain ⟨bookC, ec, hinvC, hsymC, hoppC, hownC⟩ := cancel_after_gtc h hv eG
  refine ⟨bookG, bookI, eG, eI, ?_, ?_⟩
  · have hbook : bookC = bookI := by
      refine hinvC.ext hinvI (hsymC.trans hsymI.symm) fun s => ?_
      rcases order.side.eq_or_opposite s with rfl | rfl
      · exact hownC.trans hownI.symm
      · exact hoppC.trans hoppI.symm
    rw [ec, hbook]
  · intro hx
    have hnone : book.makers order = [] :=
      List.filter_eq_nil_iff.mpr fun o ho => by rw [hx o ho]; exact Bool.false_ne_true
    refine hinvI.ext h hsymI fun s => ?_
    rcases order.side.eq_or_opposite s with rfl | rfl
    · exact hownI
    · have hall := h.makers_append_others order
      rw [hnone, List.nil_append] at hall
      exact hoppI.trans ((congrArg (left Order.qty Order.reduce order.qty · ++ book.others order)
        hnone).trans hall)

/-- a bid that takes both asks and rests with two -/
def bidTwelve : Order := { bidTen with quantity := 12 }

theorem cancel_is_ioc_bid :
    ∃ book bookG bookI fills, (OrderBook.new [65]).run [.submit askTen, .submit askNine] = some book ∧
      book.submit bidTwelve [] = some (⟨3, true, 2, ascii "accepted"⟩, fills, bookG) ∧
      book.submit { bidTwelve with tif := .immediateOrCancel } []
        = some (⟨3, true, 2, ascii "accepted"⟩, fills, bookI) ∧
      bookG.cancel 3 = (true, bookI) := by
  have hsubmit : (((OrderBook.new [65]).run [.submit askTen, .submit askNine]).bind fun book =>
      (book.submit bidTwelve []).map fun r => r.1) = some ⟨3, true, 2, ascii "accepted"⟩ := by
    decide +kernel
  obtain ⟨book, hrun, hb⟩ := Option.bind_eq_some_iff.mp hsubmit
  obtain ⟨⟨ack, fills, book'⟩, hs, e⟩ := Option.map_eq_some_iff.mp hb
  cases e
  obtain ⟨bookG, bookI, hG, hI, hc, _⟩ :=
    cancel_is_ioc [65] _ book hrun bidTwelve [] fills _ book' hs rfl
  exact ⟨book, bookG, bookI, fills, hrun, hG, hI, hc⟩

end Matching
