import SystemsCourse.Matching.Priority

/-!
# The quantity ledger

`ledger id book ops` follows the order that rests under `id` in `book` through the calls `ops`: what
later orders took of it, what a `cancel` removed, and what rests at the end.  It stops when `id` is
accepted again, as the id then names another submission.

`ledger_total`: the entries add up to what rests of the order at the start.  With what `submit`
itself traded and discarded this is the account of each accepted submission (`quantity_ledger`).
-/

set_option linter.unusedVariables false

namespace Matching
open Wire Greedy

/-- the quantity that the orders of a list have under an id -/
def restingIn (id : UInt64) (l : List Order) : ℕ := total Order.qty (l.filter fun o => o.id == id)

theorem restingIn_append (id : UInt64) (a b : List Order) :
    restingIn id (a ++ b) = restingIn id a + restingIn id b := by
  rw [restingIn, List.filter_append, total_append]
  rfl

theorem restingIn_cons (id : UInt64) (o : Order) (l : List Order) :
    restingIn id (o :: l) = (if o.id = id then o.qty else 0) + restingIn id l := by
  unfold restingIn
  by_cases h : o.id = id
  · rw [List.filter_cons_of_pos (by simpa using h), total_cons, if_pos h]
  · rw [List.filter_cons_of_neg (by simpa using h), if_neg h, Nat.zero_add]

theorem restingIn_middle (id : UInt64) (a : List Order) (o : Order) (b : List Order) :
    restingIn id (a ++ o :: b) = (if o.id = id then o.qty else 0) + restingIn id (a ++ b) := by
  rw [restingIn_append, restingIn_cons, restingIn_append]
  omega

theorem restingIn_of_notMem {id : UInt64} {l : List Order} (h : id ∉ l.map Order.id) :
    restingIn id l = 0 := by
  induction l with
  | nil => rfl
  | cons o l ih =>
    rw [List.map_cons, List.mem_cons, not_or] at h
    rw [restingIn_cons, if_neg (Ne.symm h.1), ih h.2]

/-- the quantity of `id` that rests in the book -/
def OrderBook.resting (book : OrderBook) (id : UInt64) : ℕ :=
  restingIn id (book.orders .buy) + restingIn id (book.orders .sell)

theorem OrderBook.resting_eq (book : OrderBook) (id : UInt64) (s : Side) :
    book.resting id = restingIn id (book.orders s) + restingIn id (book.orders s.opposite) := by
  cases s with
  | buy => rfl
  | sell => exact Nat.add_comm _ _

/-- the sum of the fills that consumed the order `id` -/
def consumed (id : UInt64) (fills : List Fill) : ℕ :=
  ((fills.filter fun f => f.makerId == id).map fun f => f.quantity.toNat).sum

structure Ledger where
  /-- fills in which the order was the maker -/
  maker : ℕ
  /-- removed by `cancel` -/
  cancelled : ℕ
  /-- still in the book -/
  resting : ℕ
deriving DecidableEq, Repr

def Ledger.total (l : Ledger) : ℕ := l.maker + l.cancelled + l.resting

/-- the account of the order that rests under `id`, over the calls `ops` -/
def ledger (id : UInt64) (book : OrderBook) : List Op → Ledger
  | [] => ⟨0, 0, book.resting id⟩
  | .submit order :: ops =>
    match book.submit order [] with
    | none => ⟨0, 0, book.resting id⟩
    | some (ack, fills, book') =>
      -- the id is taken by a new submission
      if ack.accepted = true ∧ order.id = id then ⟨0, 0, 0⟩
      else
        let l := ledger id book' ops
        { l with maker := consumed id fills + l.maker }
  | .cancel id' :: ops =>
    let l := ledger id (book.cancel id').2 ops
    if (book.cancel id').1 = true ∧ id' = id then
      { l with cancelled := book.resting id + l.cancelled }
    else l

/-! ## one call -/

section
variable {book : OrderBook} (h : book.Inv)
include h

theorem OrderBook.Inv.resting_dead {id : UInt64} (hl : book.live.lookup id = none) :
    book.resting id = 0 := by
  rw [OrderBook.resting, restingIn_of_notMem (h.indexed.notMem hl .buy),
    restingIn_of_notMem (h.indexed.notMem hl .sell)]

/-- what an accepted order takes from a resting one is what that one loses -/
theorem consumed_left (order : Order) (id : UInt64) :
    restingIn id (book.orders order.side.opposite)
      = consumed id (order.fills (taken Order.qty order.qty (book.makers order)))
        + restingIn id
            (left Order.qty Order.reduce order.qty (book.makers order) ++ book.others order) := by
  have hsplit := total_split Order.qty Order.reduce (fun o => o.id == id) (fun _ _ => rfl)
    Order.qty_reduce order.qty (book.makers order)
  have hcon : consumed id (order.fills (taken Order.qty order.qty (book.makers order)))
      = (((taken Order.qty order.qty (book.makers order)).filter fun t => t.1.id == id).map
          Prod.snd).sum := by
    unfold consumed Order.fills
    rw [List.filter_map, List.map_map]
    refine congrArg List.sum (List.map_congr_left ?_)
    intro t ht
    exact toNat_ofNat_le (taken_pos Order.qty order.qty _ (h.makers_pos order) t (List.mem_filter.mp ht).1).2
  rw [← h.makers_append_others order, restingIn_append, restingIn_append, hcon]
  have : restingIn id (book.makers order)
      = total Order.qty ((book.makers order).filter fun o => o.id == id) := rfl
  have : restingIn id (left Order.qty Order.reduce order.qty (book.makers order))
      = total Order.qty ((left Order.qty Order.reduce order.qty (book.makers order)).filter
          fun o => o.id == id) := rfl
  omega

/-- an accepted order: what the others lose, and what rests of the order itself -/
theorem resting_accepted (order : Order) (hv : book.Accepts order) (id : UInt64) :
    ∃ remaining book', book.submit order []
        = some (⟨order.id, true, remaining, ascii "accepted"⟩,
            order.fills (taken Order.qty order.qty (book.makers order)), book') ∧
      book'.Inv ∧ remaining.toNat = order.qty - Greedy.total Order.qty (book.makers order) ∧
      book'.resting id + consumed id (order.fills (taken Order.qty order.qty (book.makers order)))
        = book.resting id
          + if order.id = id ∧ order.tif = .goodTillCancel then remaining.toNat else 0 := by
  obtain ⟨remaining, book', e, hrem, hinv, _, hopp, hown⟩ :=
    OrderBook.submit_accepted h order [] hv
  refine ⟨remaining, book', e, hinv, hrem, ?_⟩
  have hcon := consumed_left h order id
  rw [book.resting_eq id order.side, book'.resting_eq id order.side, hopp]
  by_cases hr : 0 < remaining ∧ order.tif = .goodTillCancel
  · rw [if_pos hr] at hown
    obtain ⟨A, B, e1, e2, _⟩ := hown
    rw [e1, e2, restingIn_middle]
    dsimp only
    by_cases hid : order.id = id
    · rw [if_pos hid, if_pos ⟨hid, hr.2⟩]
      have : Order.qty { order with quantity := remaining } = remaining.toNat := rfl
      omega
    · rw [if_neg hid, if_neg (fun hc => hid hc.1)]
      omega
  · rw [if_neg hr] at hown
    rw [hown]
    split_ifs with hg
    · have hz : remaining.toNat = 0 := by
        by_contra hne
        exact hr ⟨UInt64.lt_iff_toNat_lt.mpr (Nat.pos_of_ne_zero hne), hg.2⟩
      omega
    · omega

/-- a `cancel`: the order with that id is gone, the others stay as they are -/
theorem resting_cancel (id id' : UInt64) :
    (book.cancel id').2.Inv ∧ (book.cancel id').2.resting id =
      if (book.cancel id').1 = true ∧ id' = id then 0 else book.resting id := by
  cases hl : book.live.lookup id' with
  | none =>
    rw [OrderBook.cancel_dead hl]
    exact ⟨h, by simp⟩
  | some s =>
    obtain ⟨_, A, o, B, book', e1, hid, e, hinv, _, e2, e3⟩ := OrderBook.cancel_live h hl
    rw [e]
    refine ⟨hinv, ?_⟩
    rw [book.resting_eq id s, book'.resting_eq id s, e1, e2, e3, restingIn_middle]
    by_cases hi : id' = id
    · subst hi
      rw [if_pos ⟨rfl, rfl⟩]
      -- the ids of the side are distinct, and not those of the other side
      have hnd := h.indexed.nodup s
      have hdis := h.indexed.disjoint s
      rw [OrderBook.ids, e1, List.map_append, List.map_cons, hid] at hnd hdis
      have hA : id' ∉ A.map Order.id := fun hm =>
        (List.nodup_append.mp hnd).2.2 _ hm _ (List.mem_cons_self ..) rfl
      have hB : id' ∉ B.map Order.id :=
        (List.nodup_cons.mp (List.nodup_append.mp hnd).2.1).1
      have hO : id' ∉ (book.orders s.opposite).map Order.id := fun hm =>
        hdis (List.mem_append_right _ (List.mem_cons_self ..)) hm
      rw [restingIn_append, restingIn_of_notMem hA, restingIn_of_notMem hB,
        restingIn_of_notMem hO]
    · rw [if_neg (fun hc => hi hc.2), if_neg (by rw [hid]; exact hi)]
      omega

end

/-! ## the whole run -/

/-- **the account of a resting order adds up** -/
theorem ledger_total (id : UInt64) (ops : List Op) {book : OrderBook} (h : book.Inv) :
    (ledger id book ops).total = book.resting id := by
  induction ops generalizing book with
  | nil => exact Nat.zero_add _
  | cons op ops ih =>
    cases op with
    | submit order =>
      unfold ledger
      by_cases hv : book.Accepts order
      · obtain ⟨remaining, book', e, hinv, _, hsum⟩ := resting_accepted h order hv id
        rw [e]
        dsimp only
        by_cases hid : order.id = id
        · rw [if_pos ⟨rfl, hid⟩, h.resting_dead (hid ▸ hv.2.2.2.2)]
          rfl
        · rw [if_neg (fun hc => hid hc.2)]
          rw [if_neg (fun hc => hid hc.1)] at hsum
          have hl := ih hinv
          unfold Ledger.total at hl ⊢
          dsimp only
          omega
      · obtain ⟨ack, hack, e⟩ := book.submit_rejected order [] hv
        rw [e]
        dsimp only
        rw [if_neg (fun hc => by rw [hack] at hc; cases hc.1)]
        have hl := ih h
        unfold Ledger.total at hl ⊢
        have : consumed id [] = 0 := rfl
        dsimp only
        omega
    | cancel id' =>
      obtain ⟨hinv, hres⟩ := resting_cancel h id id'
      have hl := ih hinv
      unfold ledger
      dsimp only
      unfold Ledger.total at hl ⊢
      by_cases hc : (book.cancel id').1 = true ∧ id' = id
      · rw [if_pos hc] at hres ⊢
        dsimp only
        omega
      · rw [if_neg hc] at hres ⊢
        omega

/-- what an immediate-or-cancel order leaves untraded -/
def discarded (order : Order) (ack : Ack) : ℕ :=
  match order.tif with
  | .goodTillCancel => 0
  | .immediateOrCancel => ack.remaining.toNat

/-- **Quantity ledger of a submission.**  After any run, and with any later calls `later`: the
quantity of an accepted submission is what it took, what was taken from it, what was cancelled,
what rests of it, and what was discarded. -/
theorem quantity_ledger (symbol : Bytes) (ops : List Op) (book : OrderBook)
    (hrun : (OrderBook.new symbol).run ops = some book) (order : Order) (ack : Ack)
    (fills : List Fill) (book' : OrderBook)
    (hs : book.submit order [] = some (ack, fills, book')) (ha : ack.accepted = true)
    (later : List Op) :
    order.qty = (fills.map fun f => f.quantity.toNat).sum + (ledger order.id book' later).maker
        + (ledger order.id book' later).resting + (ledger order.id book' later).cancelled
        + discarded order ack ∧
      ack.remaining.toNat = order.qty - (fills.map fun f => f.quantity.toNat).sum ∧
      (∀ f ∈ fills, f.takerId = order.id) ∧ ∃ last, book'.run later = some last := by
  have h := OrderBook.inv_of_run hrun
  have hv := OrderBook.accepts_of_ack hs ha
  obtain ⟨remaining, book₁, e, hinv, hrem, hsum⟩ := resting_accepted h order hv order.id
  rw [hs] at e
  cases e
  have htaken : ((order.fills (taken Order.qty order.qty (book.makers order))).map
      fun f => f.quantity.toNat).sum = min order.qty (Greedy.total Order.qty (book.makers order)) := by
    rw [Order.fills_quantity (h.makers_pos order), taken_sum]
  have hdead := h.resting_dead hv.2.2.2.2
  have hl := ledger_total order.id later hinv
  unfold Ledger.total at hl
  refine ⟨?_, ?_, ?_, ?_⟩
  · rw [htaken]
    unfold discarded
    dsimp only
    have hcon := consumed_left h order order.id
    have hopp : restingIn order.id (book.orders order.side.opposite) = 0 := by
      rw [book.resting_eq order.id order.side] at hdead
      omega
    cases htif : order.tif with
    | goodTillCancel =>
      rw [if_pos ⟨rfl, htif⟩] at hsum
      dsimp only
      omega
    | immediateOrCancel =>
      rw [if_neg (fun hc => by rw [htif] at hc; cases hc.2)] at hsum
      dsimp only
      omega
  · rw [htaken]
    dsimp only
    omega
  · intro f hf
    obtain ⟨t, _, rfl⟩ := List.mem_map.mp hf
    rfl
  · obtain ⟨last, e, _⟩ := OrderBook.run_inv hinv later
    exact ⟨last, e⟩

theorem askTen_submit :
    ((OrderBook.new [65]).submit askTen []).map (fun r => (r.1, r.2.1))
      = some (⟨1, true, 5, ascii "accepted"⟩, []) := by
  decide +kernel

/-- the ask rests, a bid takes two of it, and the rest is cancelled -/
theorem quantity_ledger_ask :
    ∃ book', (OrderBook.new [65]).submit askTen []
        = some (⟨1, true, 5, ascii "accepted"⟩, [], book') ∧
      5 = (ledger 1 book' [.submit { bidTen with quantity := 2 }, .cancel 1]).maker
        + (ledger 1 book' [.submit { bidTen with quantity := 2 }, .cancel 1]).resting
        + (ledger 1 book' [.submit { bidTen with quantity := 2 }, .cancel 1]).cancelled := by
  obtain ⟨⟨ack, fills, book'⟩, hs, e⟩ := Option.map_eq_some_iff.mp askTen_submit
  cases e
  obtain ⟨h, _⟩ := quantity_ledger [65] [] (OrderBook.new [65]) rfl askTen _ _ book' hs rfl
    [.submit { bidTen with quantity := 2 }, .cancel 1]
  refine ⟨book', hs, ?_⟩
  have h0 : discarded askTen ⟨1, true, 5, ascii "accepted"⟩ = 0 := rfl
  have h5 : askTen.qty = 5 := rfl
  rw [h0, h5, List.map_nil, List.sum_nil] at h
  have h1 : askTen.id = 1 := rfl
  rw [h1] at h
  omega

end Matching
