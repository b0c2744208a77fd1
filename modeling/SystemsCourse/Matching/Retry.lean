import SystemsCourse.Matching.Pipeline

/-!
# The loop of the ingress test

Model of the two threads of `ingress` in `capstone/matching/solution-reference/tests/matching_tests.cpp`,
for any orders and any capacity: the producer constructs an order and calls
`queue.try_push(std::move(order))` until it returns true.

The parameter of `try_push` is a value, so the call moves the order out of the producer's variable,
whatever it returns.  After a refusal the next call pushes what the move left there.

* `Retry.Inv`         the ring carries the orders, without their symbol where a call was refused;
* `retried_orders`    what is popped is the order that was constructed, exactly if no call for it was
                      refused or its symbol is empty;
* `Retry.Inv.push`, `Retry.Inv.refuse`, `Retry.Inv.pop`
                      the calls of a thread while the other one rests;
* `Retry.loses`       a ring of any capacity can refuse an order and take it without its symbol.
-/

set_option linter.unusedVariables false

namespace Matching
open Wire Actions

/-- what is left in an order that was moved from: its string is empty, the other fields are copied -/
def Order.movedFrom (o : Order) : Order := { o with symbol := [] }

theorem Order.movedFrom_eq (o : Order) : o.movedFrom = o ↔ o.symbol = [] := by
  constructor
  · intro h
    rw [← h]
    rfl
  · intro h
    unfold movedFrom
    rw [← h]

/-- `next` is the place of the producer in the orders -/
structure Retry where
  queue : Queue Actor Order
  next : ℕ := 0
  /-- the variable of the producer, once it is constructed -/
  order : Option Order := none
  /-- what `try_pop` has returned -/
  received : List Order := []
  /-- the places of the calls of `try_push` that returned false -/
  refused : List ℕ := []

inductive RetryAct where
  | construct (order : Order)
  | tryPush (order : Order)
  | producer
  | tryPop
  | consumer
  /-- a weak compare-exchange fails -/
  | fails (t : Actor)

namespace RetryAct

def Ok (orders : List Order) (x : Retry) : RetryAct → Prop
  | .construct order => x.order = none ∧ orders[x.next]? = some order
  | .tryPush order => (x.queue.pc .producer).isIdle = true ∧ x.order = some order
  | .producer => (x.queue.pc .producer).isIdle = false
  | .tryPop => (x.queue.pc .consumer).isIdle = true
  | .consumer => (x.queue.pc .consumer).isIdle = false
  | .fails t => True

instance (orders : List Order) (x : Retry) : (a : RetryAct) → Decidable (a.Ok orders x)
  | .construct _ => inferInstanceAs (Decidable (x.order = none ∧ orders[x.next]? = _))
  | .tryPush _ => inferInstanceAs (Decidable (_ = true ∧ x.order = _))
  | .producer => inferInstanceAs (Decidable (_ = false))
  | .tryPop => inferInstanceAs (Decidable (_ = true))
  | .consumer => inferInstanceAs (Decidable (_ = false))
  | .fails _ => inferInstanceAs (Decidable True)

def out (x : Retry) : RetryAct → Retry
  | .construct order => { x with order := some order }
  -- the parameter of `try_push` is constructed by a move
  | .tryPush order =>
    { x with queue := x.queue.goto .producer (.pushLoad order), order := some order.movedFrom }
  | .producer =>
    -- `try_push` returns true with the store of the sequence number, and the round is over
    if (x.queue.pc .producer).stores = 1 then
      { x with queue := x.queue.access Order.movedFrom .producer, next := x.next + 1, order := none }
    -- `try_push` returns false
    else if ((x.queue.access Order.movedFrom .producer).pc .producer).isIdle then
      { x with
        queue := x.queue.access Order.movedFrom .producer, refused := x.refused ++ [x.next] }
    else { x with queue := x.queue.access Order.movedFrom .producer }
  | .tryPop => { x with queue := x.queue.goto .consumer .popLoad }
  | .consumer =>
    match x.queue.pc .consumer with
    | .popStore _ result =>
      { x with
        queue := x.queue.access Order.movedFrom .consumer, received := x.received ++ result.toList }
    | _ => { x with queue := x.queue.access Order.movedFrom .consumer }
  | .fails t => { x with queue := x.queue.fails t }

end RetryAct

/-- the queue for the rounded capacity -/
def Retry.start (capacity : UInt64) : Retry where
  queue := Queue.init capacity

/-! ## the orders as they are pushed -/

/-- without their symbol where a call was refused -/
def sent (orders : List Order) (refused : List ℕ) : List Order :=
  orders.mapIdx fun n o => if n ∈ refused then o.movedFrom else o

theorem sent_length (orders : List Order) (refused : List ℕ) :
    (sent orders refused).length = orders.length := List.length_mapIdx

theorem sent_get (orders : List Order) (refused : List ℕ) (n : ℕ) :
    (sent orders refused)[n]?
      = orders[n]?.map fun o => if n ∈ refused then o.movedFrom else o := List.getElem?_mapIdx

theorem sent_fresh {orders : List Order} {refused : List ℕ} {n : ℕ} (hn : n ∉ refused) :
    (sent orders refused)[n]? = orders[n]? := by
  rw [sent_get]
  simp only [if_neg hn, Option.map_id']

/-- a refusal is about one order -/
theorem sent_refused_ne (orders : List Order) (refused : List ℕ) {n m : ℕ} (hne : n ≠ m) :
    (sent orders (refused ++ [m]))[n]? = (sent orders refused)[n]? := by
  rw [sent_get, sent_get]
  simp only [List.mem_append, List.mem_singleton, hne, or_false]

/-- the order that was refused has lost its symbol now, or lost it before -/
theorem sent_refused {orders : List Order} {refused : List ℕ} {n : ℕ} {a : Order}
    (ha : (sent orders refused)[n]? = some a) :
    (sent orders (refused ++ [n]))[n]? = some a.movedFrom := by
  rw [sent_get] at ha
  obtain ⟨o, ho, rfl⟩ := Option.map_eq_some_iff.mp ha
  rw [sent_get, ho, Option.map_some, if_pos (List.mem_append_right _ (List.mem_singleton_self n))]
  split_ifs
  · rfl
  · rfl

/-! ## the invariant -/

namespace Retry
variable {k : ℕ} {orders : List Order} {x : Retry}

/-- The ring is between the producer and the consumer.  In a call the variable of the producer holds what
the move left; between calls it holds what the next call pushes. -/
structure Inv (k : ℕ) (orders : List Order) (x : Retry) : Prop where
  spsc : Spsc k (sent orders x.refused) x.next x.received.length x.queue
  received : ∀ (i : ℕ) (a : Order), x.received[i]? = some a → (sent orders x.refused)[i]? = some a
  refused : ∀ n ∈ x.refused, n ≤ x.next
  fresh : x.order = none → (x.queue.pc .producer).isIdle = true ∧ x.next ∉ x.refused
  ready : ∀ a, x.order = some a → (x.queue.pc .producer).isIdle = true →
    (sent orders x.refused)[x.next]? = some a
  moved : (x.queue.pc .producer).isIdle = false →
    ∃ a, (sent orders x.refused)[x.next]? = some a ∧ x.order = some a.movedFrom

/-- a move of the queue in which nothing is handed over -/
theorem Inv.queue {queue : Queue Actor Order} (h : x.Inv k orders)
    (hq : Spsc k (sent orders x.refused) x.next x.received.length queue)
    (hidle : (queue.pc .producer).isIdle = (x.queue.pc .producer).isIdle) :
    ({ x with queue := queue } : Retry).Inv k orders := by
  refine ⟨hq, h.received, h.refused, ?_, ?_, ?_⟩
  · rw [hidle]
    exact h.fresh
  · rw [hidle]
    exact h.ready
  · rw [hidle]
    exact h.moved

theorem Inv.construct (h : x.Inv k orders) {order : Order}
    (hok : (RetryAct.construct order).Ok orders x) :
    ((RetryAct.construct order).out x).Inv k orders := by
  obtain ⟨hnone, ho⟩ := hok
  obtain ⟨hidle, hfresh⟩ := h.fresh hnone
  refine ⟨h.spsc, h.received, h.refused, nofun, ?_, ?_⟩
  · rintro a ha _
    cases ha
    exact (sent_fresh hfresh).trans ho
  · intro hbusy
    have hbusy' : (x.queue.pc .producer).isIdle = false := hbusy
    rw [hidle] at hbusy'
    cases hbusy'

theorem Inv.tryPush (h : x.Inv k orders) {order : Order}
    (hok : (RetryAct.tryPush order).Ok orders x) : ((RetryAct.tryPush order).out x).Inv k orders := by
  obtain ⟨hidle, ho⟩ := hok
  have hsent := h.ready order ho hidle
  refine ⟨h.spsc.tryPush hidle hsent, h.received, h.refused, nofun, ?_, fun _ => ⟨order, hsent, rfl⟩⟩
  intro a _ hi
  have hpc : ((RetryAct.tryPush order).out x).queue.pc .producer = .pushLoad order :=
    Queue.goto_pc x.queue _
  rw [hpc] at hi
  cases hi

/-- `try_push` returns true: the next round begins -/
theorem Inv.producer_true (h : x.Inv k orders) (hs : (x.queue.pc .producer).stores = 1) :
    ({ x with
        queue := x.queue.access Order.movedFrom .producer, next := x.next + 1, order := none } :
      Retry).Inv k orders := by
  have hstep := h.spsc.producer_access Order.movedFrom
  have hpc : (x.queue.access Order.movedFrom .producer).pc .producer = .idle := Queue.access_stores hs
  have hidle := congrArg IngressPc.isIdle hpc
  rw [hs] at hstep
  refine ⟨hstep, h.received, fun n hn => (h.refused n hn).trans (Nat.le_succ _), ?_, nofun, ?_⟩
  · exact fun _ => ⟨hidle, fun hn => absurd (h.refused _ hn) (Nat.not_succ_le_self _)⟩
  · intro hbusy
    exact absurd (hidle.symm.trans hbusy) nofun

/-- `try_push` returns false: only the order of this round has lost its symbol -/
theorem Inv.producer_false (h : x.Inv k orders) (hok : RetryAct.producer.Ok orders x)
    (hs : (x.queue.pc .producer).stores = 0)
    (hidle : ((x.queue.access Order.movedFrom .producer).pc .producer).isIdle = true) :
    ({ x with
        queue := x.queue.access Order.movedFrom .producer, refused := x.refused ++ [x.next] } :
      Retry).Inv k orders := by
  obtain ⟨a, ha, horder⟩ := h.moved hok
  have hstep := h.spsc.producer_access Order.movedFrom
  have hpop := h.spsc.popped_le_pushed
  rw [hs] at hstep
  refine ⟨?_, ?_, ?_, ?_, ?_, ?_⟩
  · refine hstep.items_congr (IngressPc.eq_idle hidle) ?_ ?_
    · rw [sent_length, ← sent_length orders x.refused]
      exact h.spsc.items_le
    · exact fun n hn => sent_refused_ne orders x.refused (Nat.ne_of_lt hn)
  · intro i b hb
    have hi : i < x.received.length := (List.getElem?_eq_some_iff.mp hb).1
    exact (sent_refused_ne orders x.refused (by omega)).trans (h.received i b hb)
  · intro n hn
    rcases List.mem_append.mp hn with hn | hn
    · exact h.refused n hn
    · rw [List.mem_singleton.mp hn]
  · intro hnone
    exact absurd (horder.symm.trans hnone) nofun
  · intro b hb _
    have hb' : a.movedFrom = b := Option.some.inj (horder.symm.trans hb)
    rw [← hb']
    exact sent_refused ha
  · intro hbusy
    exact absurd (hidle.symm.trans hbusy) nofun

theorem out_true (hs : (x.queue.pc .producer).stores = 1) :
    RetryAct.producer.out x
      = { x with
          queue := x.queue.access Order.movedFrom .producer, next := x.next + 1, order := none } :=
  if_pos hs

theorem out_false (hs : (x.queue.pc .producer).stores = 0)
    (hidle : ((x.queue.access Order.movedFrom .producer).pc .producer).isIdle = true) :
    RetryAct.producer.out x
      = { x with
          queue := x.queue.access Order.movedFrom .producer, refused := x.refused ++ [x.next] } := by
  unfold RetryAct.out
  dsimp only
  rw [if_neg (by rw [hs]; exact Nat.zero_ne_one), if_pos hidle]

theorem out_busy (hs : (x.queue.pc .producer).stores = 0)
    (hbusy : ((x.queue.access Order.movedFrom .producer).pc .producer).isIdle = false) :
    RetryAct.producer.out x
      = { x with queue := x.queue.access Order.movedFrom .producer } := by
  unfold RetryAct.out
  dsimp only
  rw [if_neg (by rw [hs]; exact Nat.zero_ne_one), if_neg (by rw [hbusy]; exact Bool.false_ne_true)]

theorem Inv.producer (h : x.Inv k orders) (hok : RetryAct.producer.Ok orders x) :
    (RetryAct.producer.out x).Inv k orders := by
  rcases (x.queue.pc .producer).stores_cases with hs | hs
  · cases hidle : ((x.queue.access Order.movedFrom .producer).pc .producer).isIdle with
    | true =>
      rw [out_false hs hidle]
      exact h.producer_false hok hs hidle
    | false =>
      have hstep := h.spsc.producer_access Order.movedFrom
      rw [hs] at hstep
      rw [out_busy hs hidle]
      exact h.queue hstep (hidle.trans hok.symm)
  · rw [out_true hs]
    exact h.producer_true hs

theorem Inv.tryPop (h : x.Inv k orders) (hok : RetryAct.tryPop.Ok orders x) :
    (RetryAct.tryPop.out x).Inv k orders := by
  refine h.queue (h.spsc.tryPop hok) ?_
  exact congrArg IngressPc.isIdle (Queue.goto_pc_of_ne (show Actor.producer ≠ .consumer from nofun) ..)

/-- an access of the consumer: inside of the call, or with the next order as its result -/
theorem Inv.out_consumer (h : x.Inv k orders) :
    (x.queue.pc .consumer).stores = 0 ∧
        RetryAct.consumer.out x
          = { x with queue := x.queue.access Order.movedFrom .consumer } ∨
      (x.queue.pc .consumer).stores = 1 ∧
        ∃ a, (sent orders x.refused)[x.received.length]? = some a ∧
          RetryAct.consumer.out x
            = { x with
                queue := x.queue.access Order.movedFrom .consumer, received := x.received ++ [a] } := by
  rcases h.spsc.consumer_cases with ⟨hs, hne⟩ | ⟨p, a, hpc, ha⟩
  · refine Or.inl ⟨hs, ?_⟩
    unfold RetryAct.out
    dsimp only
    split
    · rename_i p result hpc
      exact absurd hpc (hne p result)
    · rfl
  · refine Or.inr ⟨congrArg IngressPc.stores hpc, a, ha, ?_⟩
    unfold RetryAct.out
    simp only [hpc, Option.toList_some]

theorem Inv.consumer (h : x.Inv k orders) : (RetryAct.consumer.out x).Inv k orders := by
  have hstep := h.spsc.consumer_access Order.movedFrom
  have hidle : ((x.queue.access Order.movedFrom .consumer).pc .producer).isIdle
      = (x.queue.pc .producer).isIdle := congrArg IngressPc.isIdle (Queue.access_pc_of_ne nofun)
  rcases h.out_consumer with ⟨hs, e⟩ | ⟨hs, a, ha, e⟩
  · rw [hs] at hstep
    rw [e]
    exact h.queue hstep hidle
  · rw [hs] at hstep
    have hlen : (x.received ++ [a]).length = x.received.length + 1 := List.length_append
    rw [e]
    refine ⟨?_, ?_, h.refused, ?_, ?_, ?_⟩
    · show Spsc k _ x.next (x.received ++ [a]).length _
      rw [hlen]
      exact hstep
    · intro i b hb
      have hb' : (x.received ++ [a])[i]? = some b := hb
      by_cases hi : i < x.received.length
      · rw [List.getElem?_append_left hi] at hb'
        exact h.received i b hb'
      · have hlt : i < (x.received ++ [a]).length := (List.getElem?_eq_some_iff.mp hb').1
        obtain rfl : i = x.received.length := by omega
        rw [List.getElem?_concat_length] at hb'
        cases hb'
        exact ha
    · rw [hidle]
      exact h.fresh
    · rw [hidle]
      exact h.ready
    · rw [hidle]
      exact h.moved

theorem Inv.act (h : x.Inv k orders) {a : RetryAct} (hok : a.Ok orders x) :
    (a.out x).Inv k orders := by
  cases a with
  | construct order => exact h.construct hok
  | tryPush order => exact h.tryPush hok
  | producer => exact h.producer hok
  | tryPop => exact h.tryPop hok
  | consumer => exact h.consumer
  | fails t => exact h.queue (h.spsc.fails t) (Queue.fails_isIdle x.queue t .producer)

theorem start_inv {fuel : ℕ} {requested capacity : UInt64} (orders : List Order)
    (hcap : roundPowerOfTwo fuel requested = some capacity) :
    ∃ k, (start capacity).Inv k orders := by
  obtain ⟨k, hk⟩ := Spsc.init hcap (sent orders [])
  exact ⟨k, hk, nofun, nofun, fun _ => ⟨rfl, List.not_mem_nil⟩, nofun, nofun⟩

theorem reach_inv {y : Retry} (h : x.Inv k orders)
    (hrun : Reach (RetryAct.Ok orders) RetryAct.out x y) : y.Inv k orders :=
  reach_invariant (Inv k orders) hrun h fun _ _ h hok => h.act hok

end Retry

/-- **What is popped.**  The orders come in the order of their construction, and nothing but the symbol
of an order can be lost: an order arrives as it was constructed exactly if no call of `try_push` for it
was refused, or its symbol is empty. -/
theorem retried_orders (orders : List Order) (fuel : ℕ) (requested capacity : UInt64) (x : Retry)
    (hcap : roundPowerOfTwo fuel requested = some capacity)
    (hrun : Reach (RetryAct.Ok orders) RetryAct.out (Retry.start capacity) x) (i : ℕ) (order : Order)
    (hpop : x.received[i]? = some order) :
    ∃ o, orders[i]? = some o ∧ (order = o ↔ i ∉ x.refused ∨ o.symbol = []) ∧
      (order = o ∨ order = o.movedFrom) := by
  obtain ⟨k, h⟩ := Retry.start_inv orders hcap
  have hsent := (Retry.reach_inv h hrun).received i order hpop
  rw [sent_get] at hsent
  obtain ⟨o, ho, rfl⟩ := Option.map_eq_some_iff.mp hsent
  refine ⟨o, ho, ?_, ?_⟩
  · split_ifs with hi
    · rw [Order.movedFrom_eq]
      exact ⟨Or.inr, fun h => h.resolve_left (not_not_intro hi)⟩
    · exact ⟨fun _ => Or.inl hi, fun _ => rfl⟩
  · split_ifs
    · exact Or.inr rfl
    · exact Or.inl rfl

/-! ## calls of one thread, while the other rests -/

/-- a thread that comes closer to the end of its call is still in it, if being in none counts for more -/
theorem IngressPc.busy_of_left {α : Type} {pc pc' : IngressPc α} {n : ℕ} (hn : 6 ≤ n)
    (h : pc'.left n < pc.left n) : pc'.isIdle = false := by
  have hle : pc.left n ≤ n := by
    cases pc with
    | idle => exact Nat.le_refl n
    | _ => exact Nat.le_trans (by simp [IngressPc.left]) hn
  cases pc' with
  | idle => exact absurd h (Nat.not_lt_of_le hle)
  | _ => rfl

namespace Retry
variable {k : ℕ} {orders : List Order} {x : Retry}

theorem reach_act {a : RetryAct} (hok : a.Ok orders x) :
    Reach (RetryAct.Ok orders) RetryAct.out x (a.out x) := Reach.single hok

/-- a call of `try_push` begins -/
theorem tryPush_pc (x : Retry) (a : Order) :
    ((RetryAct.tryPush a).out x).queue.pc .producer = .pushLoad a ∧
      ((RetryAct.tryPush a).out x).queue.pc .consumer = x.queue.pc .consumer :=
  ⟨Queue.goto_pc x.queue _, Queue.goto_pc_of_ne (show Actor.consumer ≠ .producer from nofun) x.queue _⟩

/-- With room in the ring a call of `try_push` comes to its end and returns true.  The induction is on
what is left of the call. -/
theorem Inv.push_rest (h : x.Inv k orders) (hbusy : (x.queue.pc .producer).isIdle = false)
    (hroom : x.next < x.received.length + 2^k) :
    ∃ q, Reach (RetryAct.Ok orders) RetryAct.out x
        { x with queue := q, next := x.next + 1, order := none } ∧
      q.pc .producer = .idle ∧ q.pc .consumer = x.queue.pc .consumer := by
  induction hn : (x.queue.pc .producer).left 6 using Nat.strongRecOn generalizing x with
  | ind n ih =>
    have hcons : (x.queue.access Order.movedFrom .producer).pc .consumer = x.queue.pc .consumer :=
      Queue.access_pc_of_ne nofun
    have hok : RetryAct.producer.Ok orders x := hbusy
    have hinv := h.act hok
    have hreach := reach_act hok
    rcases (x.queue.pc .producer).stores_cases with hs | hs
    · have hlt := h.spsc.producer_left Order.movedFrom hroom hs (IngressPc.ne_idle hbusy) 6
      have hidle := IngressPc.busy_of_left (Nat.le_refl 6) hlt
      rw [out_busy hs hidle] at hinv hreach
      subst hn
      obtain ⟨q, hr, hp, hc⟩ := ih _ hlt hinv hidle hroom rfl
      exact ⟨q, hreach.trans hr, hp, hc.trans hcons⟩
    · rw [out_true hs] at hreach
      exact ⟨_, hreach, Queue.access_stores hs, hcons⟩

theorem Inv.push (h : x.Inv k orders) {a : Order} (hidle : x.queue.pc .producer = .idle)
    (ha : x.order = some a) (hroom : x.next < x.received.length + 2^k) :
    ∃ q, Reach (RetryAct.Ok orders) RetryAct.out x
        { x with queue := q, next := x.next + 1, order := none } ∧
      q.pc .producer = .idle ∧ q.pc .consumer = x.queue.pc .consumer := by
  have hok : (RetryAct.tryPush a).Ok orders x := ⟨by rw [hidle]; rfl, ha⟩
  obtain ⟨hpc, hcons⟩ := tryPush_pc x a
  obtain ⟨q, hr, hp, hc⟩ := (h.act hok).push_rest (congrArg IngressPc.isIdle hpc) hroom
  exact ⟨q, Reach.head hok hr, hp, hc.trans hcons⟩

/-- a call of `try_push` in a full ring: the two loads -/
theorem Inv.refuse_rest (h : x.Inv k orders) {a : Order} (hpc : x.queue.pc .producer = .pushLoad a)
    (hfull : x.next = x.received.length + 2^k) :
    ∃ q, Reach (RetryAct.Ok orders) RetryAct.out x
        { x with queue := q, refused := x.refused ++ [x.next] } ∧
      q.pc .producer = .idle ∧ q.pc .consumer = x.queue.pc .consumer := by
  obtain ⟨hload, hidle⟩ := h.spsc.push_full hpc hfull Order.movedFrom
  have hok : RetryAct.producer.Ok orders x := congrArg IngressPc.isIdle hpc
  have hbusy := congrArg IngressPc.isIdle hload
  have hreach := reach_act hok
  rw [out_busy (congrArg IngressPc.stores hpc) hbusy] at hreach
  have hok' : RetryAct.producer.Ok orders
      { x with queue := x.queue.access Order.movedFrom .producer } := hbusy
  have hreach' := reach_act hok'
  rw [out_false (congrArg IngressPc.stores hload) (congrArg IngressPc.isIdle hidle)] at hreach'
  have hcons (q : Queue Actor Order) :
      (q.access Order.movedFrom .producer).pc .consumer = q.pc .consumer :=
    Queue.access_pc_of_ne nofun
  exact ⟨_, hreach.trans hreach', hidle, (hcons _).trans (hcons _)⟩

/-- In a full ring the call returns false, and the variable is left without its symbol. -/
theorem Inv.refuse (h : x.Inv k orders) {a : Order} (hidle : x.queue.pc .producer = .idle)
    (ha : x.order = some a) (hfull : x.next = x.received.length + 2^k) :
    ∃ q, Reach (RetryAct.Ok orders) RetryAct.out x
        { x with queue := q, order := some a.movedFrom, refused := x.refused ++ [x.next] } ∧
      q.pc .producer = .idle ∧ q.pc .consumer = x.queue.pc .consumer := by
  have hok : (RetryAct.tryPush a).Ok orders x := ⟨by rw [hidle]; rfl, ha⟩
  obtain ⟨hpc, hcons⟩ := tryPush_pc x a
  obtain ⟨q, hr, hp, hc⟩ := (h.act hok).refuse_rest hpc hfull
  exact ⟨q, Reach.head hok hr, hp, hc.trans hcons⟩

/-- the same for `try_pop`, in a ring that is not empty -/
theorem Inv.pop_rest (h : x.Inv k orders) (hbusy : (x.queue.pc .consumer).isIdle = false)
    (hlt : x.received.length < x.next) :
    ∃ q a, Reach (RetryAct.Ok orders) RetryAct.out x
        { x with queue := q, received := x.received ++ [a] } ∧
      q.pc .consumer = .idle ∧ q.pc .producer = x.queue.pc .producer := by
  induction hn : (x.queue.pc .consumer).left 7 using Nat.strongRecOn generalizing x with
  | ind n ih =>
    have hprod : (x.queue.access Order.movedFrom .consumer).pc .producer = x.queue.pc .producer :=
      Queue.access_pc_of_ne nofun
    have hok : RetryAct.consumer.Ok orders x := hbusy
    have hinv := h.act hok
    have hreach := reach_act hok
    rcases h.out_consumer with ⟨hs, e⟩ | ⟨hs, a, ha, e⟩
    · have hless := h.spsc.consumer_left Order.movedFrom hs (IngressPc.ne_idle hbusy) 7
      rw [if_pos hlt] at hless
      have hidle := IngressPc.busy_of_left (Nat.le_succ 6) hless
      rw [e] at hinv hreach
      subst hn
      obtain ⟨q, a, hr, hc, hp⟩ := ih _ hless hinv hidle hlt rfl
      exact ⟨q, a, hreach.trans hr, hc, hp.trans hprod⟩
    · rw [e] at hreach
      exact ⟨_, a, hreach, Queue.access_stores hs, hprod⟩

theorem Inv.pop (h : x.Inv k orders) (hidle : x.queue.pc .consumer = .idle)
    (hlt : x.received.length < x.next) :
    ∃ q a, Reach (RetryAct.Ok orders) RetryAct.out x
        { x with queue := q, received := x.received ++ [a] } ∧
      q.pc .consumer = .idle ∧ q.pc .producer = x.queue.pc .producer := by
  have hok : RetryAct.tryPop.Ok orders x := by
    show (x.queue.pc .consumer).isIdle = true
    rw [hidle]
    rfl
  have hbusy : ((RetryAct.tryPop.out x).queue.pc .consumer).isIdle = false :=
    congrArg IngressPc.isIdle (Queue.goto_pc x.queue .popLoad)
  have hprod : (RetryAct.tryPop.out x).queue.pc .producer = x.queue.pc .producer :=
    Queue.goto_pc_of_ne (show Actor.producer ≠ .consumer from nofun) x.queue _
  obtain ⟨q, a, hr, hc, hp⟩ := (h.act hok).pop_rest hbusy hlt
  exact ⟨q, a, Reach.head hok hr, hc, hp.trans hprod⟩

/-- a round of the producer in a ring with room -/
theorem Inv.round (h : x.Inv k orders) {o : Order} (hnone : x.order = none)
    (ho : orders[x.next]? = some o) (hroom : x.next < x.received.length + 2^k) :
    ∃ q, Reach (RetryAct.Ok orders) RetryAct.out x
        { x with queue := q, next := x.next + 1, order := none } ∧
      q.pc .producer = .idle ∧ q.pc .consumer = x.queue.pc .consumer := by
  have hok : (RetryAct.construct o).Ok orders x := ⟨hnone, ho⟩
  have hidle := IngressPc.eq_idle (h.fresh hnone).1
  obtain ⟨q, hr, hp, hc⟩ := (h.act hok).push hidle rfl hroom
  exact ⟨q, Reach.head hok hr, hp, hc⟩

/-- the producer alone fills the ring -/
theorem fill {capacity : UInt64} (h : (start capacity).Inv k orders) {n : ℕ} (hn : n ≤ 2^k)
    (hlen : n ≤ orders.length) :
    ∃ q, Reach (RetryAct.Ok orders) RetryAct.out (start capacity) { queue := q, next := n } ∧
      q.pc .producer = .idle ∧ q.pc .consumer = .idle := by
  induction n with
  | zero => exact ⟨_, Reach.refl _, rfl, rfl⟩
  | succ n ih =>
    obtain ⟨q, hr, hp, hc⟩ := ih (Nat.le_of_succ_le hn) (Nat.le_of_succ_le hlen)
    obtain ⟨q', hr', hp', hc'⟩ := (reach_inv h hr).round rfl (List.getElem?_eq_getElem hlen)
      (Nat.lt_of_lt_of_le hn (Nat.le_add_left ..))
    exact ⟨q', hr.trans hr', hp', hc'.trans hc⟩

/-- the consumer alone pops what is in the ring -/
theorem Inv.drain (h : x.Inv k orders) (hidle : x.queue.pc .consumer = .idle) {n : ℕ}
    (hle : x.received.length + n ≤ x.next) :
    ∃ y, Reach (RetryAct.Ok orders) RetryAct.out x y ∧ y.received.length = x.received.length + n ∧
      y.refused = x.refused := by
  induction n generalizing x with
  | zero => exact ⟨x, Reach.refl _, rfl, rfl⟩
  | succ n ih =>
    obtain ⟨q, a, hr, hc, _⟩ := h.pop hidle (by omega)
    have hlen : (x.received ++ [a]).length = x.received.length + 1 := List.length_append
    obtain ⟨y, hr', hy, href⟩ := ih (reach_inv h hr) hc (by dsimp only; omega)
    refine ⟨y, hr.trans hr', ?_, href⟩
    rw [hy]
    dsimp only
    omega

/-- **A full ring loses a symbol.**  The producer fills the ring and is refused, the consumer makes room
for the order that is left, and gets it after the others. -/
theorem loses {fuel : ℕ} {requested capacity : UInt64} {o : Order}
    (hcap : roundPowerOfTwo fuel requested = some capacity) (ho : orders[capacity.toNat]? = some o) :
    ∃ y, Reach (RetryAct.Ok orders) RetryAct.out (start capacity) y ∧
      y.received[capacity.toNat]? = some o.movedFrom := by
  obtain ⟨k, h⟩ := start_inv orders hcap
  have hsize : capacity.toNat = 2^k := by
    have h63 := h.spsc.ring.size_le
    rw [show capacity = UInt64.ofNat (2^k) from h.spsc.ring.capacity, UInt64.toNat_ofNat',
      Nat.mod_eq_of_lt (by omega)]
  have h2 := h.spsc.ring.two_le
  rw [hsize] at ho ⊢
  have hlen := (List.getElem?_eq_some_iff.mp ho).1
  obtain ⟨q₁, hr₁, hp₁, hc₁⟩ := fill h (Nat.le_refl _) (Nat.le_of_lt hlen)
  have h₁ := reach_inv h hr₁
  have hok : (RetryAct.construct o).Ok orders { queue := q₁, next := 2^k } := ⟨rfl, ho⟩
  have h₁' := h₁.act hok
  obtain ⟨q₂, hr₂, hp₂, hc₂⟩ := h₁'.refuse hp₁ rfl (Nat.zero_add _).symm
  have h₂ := reach_inv h₁' hr₂
  obtain ⟨q₃, a, hr₃, hc₃, hp₃⟩ := h₂.pop (hc₂.trans hc₁) (Nat.lt_of_lt_of_le Nat.zero_lt_two h2)
  have h₃ := reach_inv h₂ hr₃
  obtain ⟨q₄, hr₄, hp₄, hc₄⟩ := h₃.push (hp₃.trans hp₂) rfl (Nat.lt_add_of_pos_left Nat.one_pos)
  have h₄ := reach_inv h₃ hr₄
  obtain ⟨y, hr₅, hy, href⟩ := h₄.drain (n := 2^k) (hc₄.trans hc₃) (Nat.le_of_eq (Nat.add_comm ..))
  have h₅ := reach_inv h₄ hr₅
  refine ⟨y, hr₁.trans (Reach.head hok (hr₂.trans (hr₃.trans (hr₄.trans hr₅)))), ?_⟩
  have hlast : 2^k < y.received.length := by
    rw [hy]
    exact Nat.lt_add_of_pos_left Nat.one_pos
  have hmem : 2^k ∈ y.refused := by
    rw [href]
    exact List.mem_singleton_self _
  have hsent := h₅.received _ _ (List.getElem?_eq_getElem hlast)
  rw [sent_get, ho, Option.map_some, if_pos hmem] at hsent
  rw [List.getElem?_eq_getElem hlast, hsent]

end Retry

/-- the order of a round of the test -/
def testOrder (i : ℕ) : Order where
  id := UInt64.ofNat i + 1
  symbol := ascii "TEST"
  side := .buy
  priceTicks := 100
  quantity := 1
  sequence := UInt64.ofNat i + 1

/-- `total` rounds -/
def testOrders : List Order := (List.range 50000).map testOrder

/-- In the test itself, with its queue of 1024 cells, the order after those that fill the ring can arrive
without its symbol. -/
theorem test_loses_symbol :
    roundPowerOfTwo 10 1024 = some 1024 ∧ testOrders[1024]? = some (testOrder 1024) ∧
    ∃ x, Reach (RetryAct.Ok testOrders) RetryAct.out (Retry.start 1024) x ∧
      x.received[1024]? = some { testOrder 1024 with symbol := [] } ∧
      ({ testOrder 1024 with symbol := [] } : Order) ≠ testOrder 1024 := by
  have hcap : roundPowerOfTwo 10 1024 = some 1024 := by decide
  have ho : testOrders[1024]? = some (testOrder 1024) := by
    rw [testOrders, List.getElem?_map, List.getElem?_range (by omega), Option.map_some]
  obtain ⟨x, hrun, hx⟩ := Retry.loses hcap ho
  refine ⟨hcap, ho, x, hrun, hx, ?_⟩
  intro e
  have hempty := (Order.movedFrom_eq (testOrder 1024)).mp e
  exact absurd hempty (by decide)

def threeOrders : List Order := [testOrder 0, testOrder 1, testOrder 2]

/-- a round of the producer without a refusal -/
def round (i : ℕ) : List RetryAct :=
  .construct (testOrder i) :: .tryPush (testOrder i) :: List.replicate 5 .producer

/-- In a ring of two cells the third order is refused. -/
def thirdRefused : List RetryAct :=
  round 0 ++ round 1 ++ [.construct (testOrder 2), .tryPush (testOrder 2), .producer, .producer] ++
    .tryPop :: List.replicate 6 .consumer

theorem retried_orders_first :
    roundPowerOfTwo 1 2 = some 2 ∧
    ∃ x, Reach (RetryAct.Ok threeOrders) RetryAct.out (Retry.start 2) x ∧ x.refused = [2] ∧
      x.received = [testOrder 0] ∧
      ∃ o, threeOrders[0]? = some o ∧ (testOrder 0 = o ↔ 0 ∉ x.refused ∨ o.symbol = []) ∧
        (testOrder 0 = o ∨ testOrder 0 = o.movedFrom) := by
  have hcap : roundPowerOfTwo 1 2 = some 2 := by decide
  have hrun : (perform (RetryAct.Ok threeOrders) RetryAct.out (Retry.start 2) thirdRefused).map
      (fun x => (x.refused, x.received)) = some ([2], [testOrder 0]) := by
    decide +kernel
  obtain ⟨x, hx, e⟩ := Option.map_eq_some_iff.mp hrun
  obtain ⟨hrefused, hreceived⟩ := Prod.mk.inj e
  have hpop : x.received[0]? = some (testOrder 0) := by rw [hreceived]; rfl
  exact ⟨hcap, x, perform_reach hx, hrefused, hreceived,
    retried_orders threeOrders 1 2 2 x hcap (perform_reach hx) 0 (testOrder 0) hpop⟩

end Matching
