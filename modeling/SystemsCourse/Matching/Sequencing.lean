import SystemsCourse.Matching.Engine

/-!
# Sequence numbers and time priority

A level keeps its orders in order of arrival.  They are in order of their sequence numbers if these
grow from one submission at a price to the next (`sequenced_run`).  The engine stamps the orders that
have no number, but it does not look at the explicit ones, so it can stamp a number that is lower
than one that rests already (`stamped_below_explicit`).  Without such a mixture the maker with the
lowest number is filled first (`sequence_priority`).
-/

set_option linter.unusedVariables false

namespace Matching
open Wire Family Greedy

/-! ## a book -/

/-- the orders of a price are in order of their sequence numbers -/
def Sequenced (l : List Order) : Prop :=
  l.Pairwise fun x y => x.priceTicks = y.priceTicks → x.sequence < y.sequence

def Op.order? : Op → Option Order
  | .submit order => some order
  | .cancel _ => none

/-- what the place of an order in its side depends on -/
def Order.place (o : Order) : Int64 × UInt64 := (o.priceTicks, o.sequence)

section
variable {book book' : OrderBook} (h : book.Inv)
include h

/-- a call keeps the order, if the number of a submission is above those that rest at its price;
what rests afterwards rested before, or it is the submission -/
theorem sequenced_step (hs : ∀ s, Sequenced (book.orders s)) {op : Op}
    (hop : ∀ order ∈ op.order?, ∀ o ∈ book.orders order.side,
      o.priceTicks = order.priceTicks → o.sequence < order.sequence)
    (e : book.step op = some book') (s : Side) :
    Sequenced (book'.orders s) ∧ ∀ o ∈ book'.orders s,
      (∃ o' ∈ book.orders s, o'.place = o.place) ∨
        ∃ order ∈ op.order?, order.side = s ∧ order.place = o.place := by
  rcases OrderBook.side_step Order.place (fun _ _ => rfl) h e s with
    hsub | ⟨order, remaining, rfl, _, rfl, A, B, eA, eB, hA, hB⟩
  · constructor
    · have hmap : ((book.orders s).map Order.place).Pairwise fun x y => x.1 = y.1 → x.2 < y.2 :=
        List.pairwise_map.mpr (hs s)
      exact List.pairwise_map.mp (hmap.sublist hsub)
    · intro o ho
      obtain ⟨o', ho', hp⟩ := List.mem_map.mp (hsub.subset (List.mem_map_of_mem ho))
      exact Or.inl ⟨o', ho', hp⟩
  · have hold := hs order.side
    rw [eA] at hold
    obtain ⟨h1, h2, h3⟩ := List.pairwise_append.mp hold
    constructor
    · rw [eB]
      refine List.pairwise_append.mpr ⟨h1, List.pairwise_cons.mpr ⟨?_, h2⟩, ?_⟩
      · -- the orders behind it have a worse price
        intro y hy hp
        exact absurd (hp ▸ hB y hy) (order.side.better_irrefl _)
      · intro x hx y hy
        rcases List.mem_cons.mp hy with rfl | hy
        · exact hop order rfl x (by rw [eA]; exact List.mem_append_left _ hx)
        · exact h3 x hx y hy
    · intro o ho
      rw [eB] at ho
      rcases List.mem_append.mp ho with ho | ho
      · exact Or.inl ⟨o, by rw [eA]; exact List.mem_append_left _ ho, rfl⟩
      · rcases List.mem_cons.mp ho with rfl | ho
        · exact Or.inr ⟨order, rfl, rfl, rfl⟩
        · exact Or.inl ⟨o, by rw [eA]; exact List.mem_append_right _ ho, rfl⟩

/-- the levels of a side -/
theorem OrderBook.Inv.sequenced_levels {s : Side} (hs : Sequenced (book.orders s)) :
    ∀ e ∈ (book.levels s).entries, e.2.orders.Pairwise fun x y => x.sequence < y.sequence := by
  intro e he
  refine ((List.pairwise_flatMap.mp hs).1 e he).imp_of_mem ?_
  intro x y hx hy hxy
  have hr := (h.filed s e he).2
  exact hxy (by rw [(hr x hx).price, (hr y hy).price])

/-- at equal price the maker with the lower number is filled first, and completely -/
theorem OrderBook.Inv.filled_first {order : Order} (hs : Sequenced (book.orders order.side.opposite))
    {fills new : List Fill} {ack : Ack} (e : book.submit order fills = some (ack, fills ++ new, book'))
    {x m : Order} (hx : x ∈ book.orders order.side.opposite)
    (hm : m ∈ book.orders order.side.opposite) (hp : x.priceTicks = m.priceTicks)
    (hlt : x.sequence < m.sequence) {i : ℕ} {f : Fill} (hf : new[i]? = some f)
    (hfm : f.makerId = m.id) :
    ∃ k g, k < i ∧ new[k]? = some g ∧ g.makerId = x.id ∧ g.quantity = x.quantity := by
  by_cases hv : book.Accepts order
  · obtain ⟨_, _, e', _⟩ := OrderBook.submit_accepted h order fills hv
    rw [e] at e'
    obtain ⟨_, e'⟩ := Prod.mk.inj (Option.some.inj e')
    obtain rfl := List.append_cancel_left (Prod.mk.inj e').1
    obtain ⟨m', hm', _, hid, _⟩ := Order.fills_get (h.makers_pos order) order.qty i f hf
    have hmem := List.mem_filter.mp (List.mem_of_getElem? hm')
    obtain rfl : m' = m :=
      List.inj_on_of_nodup_map (h.indexed.nodup _) hmem.1 hm (hid.symm.trans hfm)
    obtain ⟨k, hk⟩ : ∃ k, (book.makers order)[k]? = some x :=
      List.mem_iff_getElem?.mp (List.mem_filter.mpr ⟨hx, by rw [hp]; exact hmem.2⟩)
    have hki : k < i := by
      obtain ⟨hi, ei⟩ := List.getElem?_eq_some_iff.mp hm'
      obtain ⟨hk, ek⟩ := List.getElem?_eq_some_iff.mp hk
      rcases Nat.lt_trichotomy k i with hlt' | rfl | hlt'
      · exact hlt'
      · rw [ek] at ei
        rw [ei] at hlt
        exact absurd hlt (UInt64.lt_irrefl _)
      · have hsort : Sequenced (book.makers order) := hs.filter _
        have hr := List.pairwise_iff_getElem.mp hsort i k hi hk hlt'
        rw [ei, ek] at hr
        exact absurd (UInt64.lt_trans hlt (hr hp.symm)) (UInt64.lt_irrefl _)
    obtain ⟨hi, _⟩ := List.getElem?_eq_some_iff.mp hf
    obtain ⟨g, hg⟩ : ∃ g, (order.fills (taken Order.qty order.qty (book.makers order)))[k]? = some g :=
      ⟨_, List.getElem?_eq_getElem (hki.trans hi)⟩
    obtain ⟨x', hx', _, hxid, _, _, _, _, _, hq⟩ :=
      Order.fills_get (h.makers_pos order) order.qty k g hg
    rw [hk] at hx'
    cases hx'
    exact ⟨k, g, hki, hg, hxid, hq (by omega)⟩
  · obtain ⟨_, _, e'⟩ := OrderBook.submit_rejected book order fills hv
    rw [e] at e'
    obtain ⟨_, e'⟩ := Prod.mk.inj (Option.some.inj e')
    have hnil : new = [] :=
      List.append_cancel_left ((Prod.mk.inj e').1.trans (List.append_nil fills).symm)
    rw [hnil] at hf
    cases hf

end

theorem OrderBook.step_of_perform {book book' : OrderBook} {op : Op} {out : Outcome}
    (h : book.perform op = some (out, book')) : book.step op = some book' := by
  cases op with
  | submit order =>
    obtain ⟨r, hs, e⟩ := Option.map_eq_some_iff.mp h
    cases e
    rw [OrderBook.step, hs]
    rfl
  | cancel id =>
    cases h
    rfl

/-- the second order would rest behind the first one, and its number is higher -/
def Rising (a b : Order) : Prop :=
  a.side = b.side → a.priceTicks = b.priceTicks → a.sequence < b.sequence

/-- **a run keeps the orders of a price in order of their numbers** -/
theorem sequenced_run (ops : List Op) {book last : OrderBook} {outs : List Outcome} (h : book.Inv)
    (hs : ∀ s, Sequenced (book.orders s))
    (hrest : ∀ s, ∀ o ∈ book.orders s, ∀ b ∈ ops.filterMap Op.order?, b.side = s →
      o.priceTicks = b.priceTicks → o.sequence < b.sequence)
    (hrise : (ops.filterMap Op.order?).Pairwise Rising)
    (hrun : Family.run OrderBook.perform book ops = some (outs, last)) (s : Side) :
    Sequenced (last.orders s) := by
  induction ops generalizing book outs with
  | nil =>
    cases hrun
    exact hs s
  | cons op ops ih =>
    obtain ⟨out, book₁, outs', h1, h2, rfl⟩ := run_cons_eq_some hrun
    have hstep := OrderBook.step_of_perform h1
    obtain ⟨book₂, e, hinv, _⟩ := OrderBook.step_inv h op
    rw [hstep] at e
    cases e
    have hhead : ∀ b ∈ op.order?, b ∈ (op :: ops).filterMap Op.order? :=
      fun b hb => List.mem_filterMap.mpr ⟨op, List.mem_cons_self .., hb⟩
    have htail : ∀ b ∈ ops.filterMap Op.order?, b ∈ (op :: ops).filterMap Op.order? := by
      intro b hb
      obtain ⟨o, ho, e⟩ := List.mem_filterMap.mp hb
      exact List.mem_filterMap.mpr ⟨o, List.mem_cons_of_mem _ ho, e⟩
    have hkeep := sequenced_step h hs
      (fun order ho o hm => hrest _ o hm order (hhead order ho) rfl) hstep
    refine ih hinv (fun s => (hkeep s).1) ?_ ?_ h2
    · intro s o ho b hb hside hp
      rcases (hkeep s).2 o ho with ⟨o', ho', e⟩ | ⟨order, ho', rfl, e⟩
      · obtain ⟨e1, e2⟩ := Prod.mk.inj e
        rw [← e2]
        exact hrest s o' ho' b (htail b hb) hside (e1.trans hp)
      · obtain ⟨e1, e2⟩ := Prod.mk.inj e
        rw [← e2]
        rw [List.filterMap_cons_some ho'] at hrise
        exact (List.pairwise_cons.mp hrise).1 b hb hside.symm (e1.trans hp)
    · cases op with
      | submit order => exact (List.pairwise_cons.mp hrise).2
      | cancel id => exact hrise

/-! ## the stamps -/

def Call.order? : Call → Option Order
  | .submit order => some order
  | .cancel _ _ => none

/-- the orders of a run, as they are submitted -/
def submitted (calls : List Call) : List Order := calls.filterMap Call.order?

/-- the orders as `submit` hands them on, from `next_sequence_ = next` -/
def stampAll (next : UInt64) : List Order → List Order
  | [] => []
  | order :: orders =>
    MatchingEngine.stamp next order :: stampAll (MatchingEngine.nextAfter next order) orders

/-- the number of orders that the engine stamps -/
def stamps (orders : List Order) : ℕ := orders.countP fun o => decide (o.sequence = 0)

theorem stamps_cons (o : Order) (orders : List Order) :
    stamps (o :: orders) = stamps orders + if o.sequence = 0 then 1 else 0 := by
  simp [stamps, List.countP_cons]

/-- the submissions of a symbol's book -/
theorem select_orders (s : Bytes) (next : UInt64) (calls : List Call) :
    (select s (stamped next calls)).filterMap Op.order?
      = (stampAll next (submitted calls)).filter fun o => decide (o.symbol = s) := by
  induction calls generalizing next with
  | nil => rfl
  | cons call calls ih =>
    cases call with
    | submit order =>
      show (select s ((order.symbol, Op.submit (MatchingEngine.stamp next order)) ::
          stamped (MatchingEngine.nextAfter next order) calls)).filterMap Op.order?
        = (MatchingEngine.stamp next order ::
            stampAll (MatchingEngine.nextAfter next order) (submitted calls)).filter _
      have hsym := MatchingEngine.stamp_symbol next order
      by_cases hs : order.symbol = s
      · rw [hs, select_cons_self, List.filter_cons_of_pos (by simpa [hsym] using hs), ← ih]
        rfl
      · rw [select_cons_ne hs, List.filter_cons_of_neg (by simpa [hsym] using hs), ih]
    | cancel symbol id =>
      show (select s ((symbol, Op.cancel id) :: stamped next calls)).filterMap Op.order?
        = (stampAll next (submitted calls)).filter _
      by_cases hs : symbol = s
      · rw [hs, select_cons_self, ← ih]
        rfl
      · rw [select_cons_ne hs, ih]

/-- a stamped order is a submitted one, with its own number or with a stamp above `n` -/
theorem mem_stampAll {orders : List Order} {n : ℕ} {b : Order}
    (hn : n + stamps orders < 2^64) (hb : b ∈ stampAll (UInt64.ofNat (n + 1)) orders) :
    ∃ o ∈ orders, b.symbol = o.symbol ∧ b.side = o.side ∧ b.priceTicks = o.priceTicks ∧
      if o.sequence = 0 then n < b.sequence.toNat else b.sequence = o.sequence := by
  induction orders generalizing n with
  | nil => cases hb
  | cons o orders ih =>
    rw [stamps_cons] at hn
    rcases List.mem_cons.mp hb with rfl | hb
    · refine ⟨o, List.mem_cons_self .., ?_⟩
      unfold MatchingEngine.stamp
      split_ifs with hz
      · rw [if_pos hz] at hn
        have hlt : n + 1 < 2^64 := by omega
        refine ⟨rfl, rfl, rfl, ?_⟩
        show n < (UInt64.ofNat (n + 1)).toNat
        rw [UInt64.toNat_ofNat_of_lt' hlt]
        omega
      · exact ⟨rfl, rfl, rfl, rfl⟩
    · unfold MatchingEngine.nextAfter at hb
      split_ifs at hb hn with hz
      · rw [← UInt64.ofNat_one, ← UInt64.ofNat_add] at hb
        obtain ⟨o', ho', h1, h2, h3, h4⟩ := ih (by omega) hb
        refine ⟨o', List.mem_cons_of_mem _ ho', h1, h2, h3, ?_⟩
        split_ifs at h4 ⊢ with hz'
        · omega
        · exact h4
      · obtain ⟨o', ho', h⟩ := ih (by omega) hb
        exact ⟨o', List.mem_cons_of_mem _ ho', h⟩

/-! ## runs -/

/-- the explicit sequence numbers grow -/
def ExplicitRising (orders : List Order) : Prop :=
  (orders.filter fun o => decide (o.sequence ≠ 0)).Pairwise fun a b => a.sequence < b.sequence

/-- Stamps come before explicit numbers: no order without a number follows one with a number at the
same price of the same book, an explicit number is above the number of stamps given before it, here
`n` and those of the run, and the stamps do not wrap around. -/
structure StampsFirst (n : ℕ) (orders : List Order) : Prop where
  unmixed : orders.Pairwise fun a b => a.symbol = b.symbol → a.side = b.side →
    a.priceTicks = b.priceTicks → a.sequence ≠ 0 → b.sequence ≠ 0
  above : ∀ pre o post, orders = pre ++ o :: post → o.sequence ≠ 0 →
    n + stamps pre < o.sequence.toNat
  few : n + stamps orders < 2^64

theorem StampsFirst.tail {n : ℕ} {o : Order} {orders : List Order}
    (h : StampsFirst n (o :: orders)) :
    StampsFirst (n + if o.sequence = 0 then 1 else 0) orders := by
  have hfew := h.few
  rw [stamps_cons] at hfew
  refine ⟨(List.pairwise_cons.mp h.unmixed).2, ?_, by omega⟩
  intro pre b post e hb
  have := h.above (o :: pre) b post (by rw [e]; rfl) hb
  rw [stamps_cons] at this
  omega

theorem StampsFirst.initial {n : ℕ} {orders pre : List Order} (h : StampsFirst n orders)
    (hp : pre <+: orders) : StampsFirst n pre := by
  obtain ⟨rest, rfl⟩ := hp
  have hfew := h.few
  have hle : stamps pre ≤ stamps (pre ++ rest) := by simp [stamps]
  refine ⟨(List.pairwise_append.mp h.unmixed).1, ?_, by omega⟩
  intro a o b e ho
  exact h.above a o (b ++ rest) (by rw [e]; simp) ho

/-- the numbers that the engine hands on grow at each price -/
theorem stampAll_rising {n : ℕ} {orders : List Order} (h : StampsFirst n orders)
    (hinc : ExplicitRising orders) :
    (stampAll (UInt64.ofNat (n + 1)) orders).Pairwise fun a b => a.symbol = b.symbol → Rising a b := by
  induction orders generalizing n with
  | nil => exact List.Pairwise.nil
  | cons o orders ih =>
    have htail := h.tail
    obtain ⟨hmix, _⟩ := List.pairwise_cons.mp h.unmixed
    rw [stampAll, List.pairwise_cons]
    unfold MatchingEngine.stamp MatchingEngine.nextAfter
    by_cases hz : o.sequence = 0
    · rw [if_pos hz, if_pos hz]
      rw [if_pos hz] at htail
      rw [← UInt64.ofNat_one, ← UInt64.ofNat_add]
      have hinc' : ExplicitRising orders := by
        unfold ExplicitRising at hinc
        rwa [List.filter_cons_of_neg (by simpa using hz)] at hinc
      refine ⟨?_, ih htail hinc'⟩
      intro b hb _ _ _
      have hfew := h.few
      rw [stamps_cons, if_pos hz] at hfew
      have hlt : n + 1 < 2^64 := by omega
      have hstamp : (UInt64.ofNat (n + 1)).toNat = n + 1 := UInt64.toNat_ofNat_of_lt' hlt
      refine UInt64.lt_iff_toNat_lt.mpr ?_
      show (UInt64.ofNat (n + 1)).toNat < b.sequence.toNat
      obtain ⟨b₀, hb₀, _, _, _, hseq⟩ := mem_stampAll htail.few hb
      split_ifs at hseq with hz'
      · omega
      · obtain ⟨pre, post, e⟩ := List.append_of_mem hb₀
        have := htail.above pre b₀ post e hz'
        rw [hseq]
        omega
    · rw [if_neg hz, if_neg hz]
      rw [if_neg hz, Nat.add_zero] at htail
      unfold ExplicitRising at hinc
      rw [List.filter_cons_of_pos (by simpa using hz)] at hinc
      obtain ⟨hlt, hinc'⟩ := List.pairwise_cons.mp hinc
      refine ⟨?_, ih htail hinc'⟩
      intro b hb hsym hside hp
      obtain ⟨b₀, hb₀, e1, e2, e3, hseq⟩ := mem_stampAll htail.few hb
      have hz' := hmix b₀ hb₀ (hsym.trans e1) (hside.trans e2) (hp.trans e3) hz
      rw [if_neg hz'] at hseq
      rw [hseq]
      exact hlt b₀ (List.mem_filter.mpr ⟨hb₀, by simpa using hz'⟩)

/-- **Time priority by sequence number.**  In a run whose explicit numbers grow and whose stamps come
first, in every state that is reached each level of each book has its orders in order of their
numbers, and of two makers at one price the one with the lower number is filled first and
completely. -/
theorem sequence_priority (symbols : List Bytes) (calls : List Call)
    (hinc : ExplicitRising (submitted calls)) (hfirst : StampsFirst 0 (submitted calls))
    (reached : List Call) (hreached : reached <+: calls) :
    ∃ log engine, run MatchingEngine.perform (MatchingEngine.prepared symbols) reached
        = some (log, engine) ∧
      (∀ symbol s, ∀ e ∈ ((engine.bookOf symbol).levels s).entries,
        e.2.orders.Pairwise fun x y => x.sequence < y.sequence) ∧
      (∀ order fills ack (new : List Fill) engine',
        engine.submit order fills = some (ack, fills ++ new, engine') →
        ∀ x ∈ (engine.bookOf order.symbol).orders order.side.opposite,
        ∀ m ∈ (engine.bookOf order.symbol).orders order.side.opposite,
          x.priceTicks = m.priceTicks → x.sequence < m.sequence →
          ∀ (i : ℕ) (f : Fill), new[i]? = some f → f.makerId = m.id →
            ∃ (k : ℕ) (g : Fill), k < i ∧ new[k]? = some g ∧ g.makerId = x.id ∧ g.quantity = x.quantity) := by
  have hsub : submitted reached <+: submitted calls := hreached.filterMap _
  have hinc' : ExplicitRising (submitted reached) := hinc.sublist (hsub.filter _).sublist
  have hrise := stampAll_rising (hfirst.initial hsub) hinc'
  obtain ⟨log, engine, he, hinv, hrun⟩ := MatchingEngine.run_books symbols reached
  have hseq : ∀ symbol s, Sequenced ((engine.bookOf symbol).orders s) := by
    intro symbol s
    refine sequenced_run _ (OrderBook.new_inv symbol) ?_ ?_ ?_ (hrun symbol) s
    · intro s'
      rw [OrderBook.orders_new]
      exact List.Pairwise.nil
    · intro s' o ho
      rw [OrderBook.orders_new] at ho
      cases ho
    · rw [select_orders]
      refine (hrise.filter _).imp_of_mem ?_
      intro a b ha hb hab
      have ea : a.symbol = symbol := by simpa using (List.mem_filter.mp ha).2
      have eb : b.symbol = symbol := by simpa using (List.mem_filter.mp hb).2
      exact hab (ea.trans eb.symm)
  refine ⟨log, engine, he, fun symbol s => (hinv symbol).inv.sequenced_levels (hseq symbol s), ?_⟩
  intro order fills ack new engine' hs x hx m hm hp hlt i f hf hfm
  have hside : (MatchingEngine.stamp engine.nextSequence order).side = order.side := by
    unfold MatchingEngine.stamp
    split_ifs <;> rfl
  obtain ⟨ack', new', book', e, _⟩ := (hinv order.symbol).inv.submit_fills
    (MatchingEngine.stamp engine.nextSequence order) fills
  obtain ⟨engine₁, e', _⟩ := MatchingEngine.submit_book e
  rw [hs] at e'
  obtain ⟨_, e'⟩ := Prod.mk.inj (Option.some.inj e')
  obtain rfl := List.append_cancel_left (Prod.mk.inj e').1
  rw [← hside] at hx hm
  exact (hinv order.symbol).inv.filled_first (hseq _ _) e hx hm hp hlt hf hfm

/-- an ask with an explicit number, an ask without one, and a bid for one of them -/
def askExplicit : Order := { askTen with sequence := 10 }

def askUnstamped : Order := { askTen with id := 2 }

def bidFive : Order := { bidTen with quantity := 5, sequence := 11 }

/-- an unnumbered ask, stamped 1, comes before the explicit one -/
theorem sequence_priority_ask :
    ∃ log engine, run MatchingEngine.perform (MatchingEngine.prepared [])
        [.submit askUnstamped, .submit askExplicit] = some (log, engine) ∧
      ((engine.bookOf [65]).levels .sell).entries.map (fun e => e.2.orders.map Order.sequence)
        = [[1, 10]] ∧
      ∀ e ∈ ((engine.bookOf [65]).levels .sell).entries,
        e.2.orders.Pairwise fun x y => x.sequence < y.sequence := by
  have hfirst : StampsFirst 0 (submitted [.submit askUnstamped, .submit askExplicit]) := by
    refine ⟨by decide, ?_, by decide⟩
    intro pre o post e ho
    rcases pre with _ | ⟨a, _ | ⟨b, pre⟩⟩
    · cases e
      exact absurd rfl ho
    · cases e
      decide
    · have := congrArg List.length e
      simp [submitted, Call.order?] at this
  obtain ⟨log, engine, he, h, _⟩ := sequence_priority [] [.submit askUnstamped, .submit askExplicit]
    (by unfold ExplicitRising; decide) hfirst _ List.prefix_rfl
  have hlevel : (run MatchingEngine.perform (MatchingEngine.prepared [])
      [.submit askUnstamped, .submit askExplicit]).map (fun r =>
        ((r.2.bookOf [65]).levels .sell).entries.map fun e => e.2.orders.map Order.sequence)
      = some [[1, 10]] := by
    decide +kernel
  rw [he] at hlevel
  exact ⟨log, engine, he, Option.some.inj hlevel, h [65] .sell⟩

/-- **the stamp is below an explicit number**: the level has the numbers 10 and 1 in this order, and
a bid takes the ask with the number 10 -/
theorem stamped_below_explicit :
    ExplicitRising (submitted [.submit askExplicit, .submit askUnstamped]) ∧
    ∃ log engine ack engine', run MatchingEngine.perform (MatchingEngine.prepared [])
        [.submit askExplicit, .submit askUnstamped] = some (log, engine) ∧
      (∃ e ∈ ((engine.bookOf [65]).levels .sell).entries,
        ¬ e.2.orders.Pairwise fun x y => x.sequence < y.sequence) ∧
      engine.submit bidFive [] = some (ack, [⟨3, 1, .buy, 10, 5, 11⟩], engine') := by
  refine ⟨by unfold ExplicitRising; decide, ?_⟩
  have hrun : (run MatchingEngine.perform (MatchingEngine.prepared [])
      [.submit askExplicit, .submit askUnstamped]).map (fun r =>
        (((r.2.bookOf [65]).levels .sell).entries.map (fun e => e.2.orders.map Order.sequence),
          (r.2.submit bidFive []).map fun q => q.2.1))
      = some ([[10, 1]], some [⟨3, 1, .buy, 10, 5, 11⟩]) := by
    decide +kernel
  obtain ⟨⟨log, engine⟩, he, e⟩ := Option.map_eq_some_iff.mp hrun
  obtain ⟨hlevel, hfill⟩ := Prod.mk.inj e
  obtain ⟨⟨ack, fills, engine'⟩, hs, hf⟩ := Option.map_eq_some_iff.mp hfill
  dsimp only at hf
  subst hf
  refine ⟨log, engine, ack, engine', he, ?_, hs⟩
  have hmem : [10, 1] ∈ ((engine.bookOf [65]).levels .sell).entries.map
      (fun e => e.2.orders.map Order.sequence) := by
    dsimp only at hlevel
    rw [hlevel]
    exact List.mem_singleton_self _
  obtain ⟨x, hx, hseq⟩ := List.mem_map.mp hmem
  refine ⟨x, hx, ?_⟩
  intro hp
  have hp' : (x.2.orders.map Order.sequence).Pairwise (· < ·) := List.pairwise_map.mpr hp
  rw [hseq] at hp'
  exact absurd hp' (by decide)

end Matching
