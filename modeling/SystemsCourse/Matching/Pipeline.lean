import SystemsCourse.Lib.Actions
import SystemsCourse.Matching.Engine
import SystemsCourse.Matching.Spsc

/-!
# The pipeline

Model of the two threads of `capstone/matching/solution-reference/apps/bench_main.cpp`: the producer
pushes the orders one after another, with a new copy for each attempt; the consumer submits what it pops
to the engine, until it has consumed as many orders as there are.

The fills and the books are those of a sequential replay (`pipeline_replay`): the ring hands the orders
over in their order (`Spsc`), and the consumer alone has the engine.  From every state of a run it can
get all of them (`Pipeline.can_finish`).
-/

set_option linter.unusedVariables false

namespace Matching
open Wire Actions

/-- the orders are submitted one after another -/
def replay : MatchingEngine → List Fill → List Order → Option (List Fill × MatchingEngine)
  | engine, fills, [] => some (fills, engine)
  | engine, fills, order :: orders =>
    match engine.submit order fills with
    | none => none
    | some (_, fills', engine') => replay engine' fills' orders

/-- `next` is the place of the producer in the orders; `received` is what `try_pop` has returned and is
not submitted yet -/
structure Pipeline where
  queue : Queue Actor Order
  next : ℕ := 0
  received : Option Order := none
  engine : MatchingEngine
  fills : List Fill := []
  consumed : ℕ := 0

inductive PipeAct where
  | tryPush (order : Order)
  | producer
  | tryPop
  | consumer
  /-- a weak compare-exchange fails -/
  | fails (t : Actor)
  | submit (order : Order)

namespace PipeAct

def Ok (orders : List Order) (x : Pipeline) : PipeAct → Prop
  | .tryPush order => (x.queue.pc .producer).isIdle = true ∧ orders[x.next]? = some order
  | .producer => (x.queue.pc .producer).isIdle = false
  | .tryPop => (x.queue.pc .consumer).isIdle = true ∧ x.received = none ∧ x.consumed < orders.length
  | .consumer => (x.queue.pc .consumer).isIdle = false
  | .fails t => True
  | .submit order => x.received = some order ∧ (x.engine.submit order x.fills).isSome = true

instance (orders : List Order) (x : Pipeline) : (a : PipeAct) → Decidable (a.Ok orders x)
  | .tryPush _ => inferInstanceAs (Decidable (_ = true ∧ orders[x.next]? = _))
  | .producer => inferInstanceAs (Decidable (_ = false))
  | .tryPop => inferInstanceAs (Decidable (_ = true ∧ x.received = none ∧ _ < _))
  | .consumer => inferInstanceAs (Decidable (_ = false))
  | .fails _ => inferInstanceAs (Decidable True)
  | .submit _ => inferInstanceAs (Decidable (x.received = _ ∧ _ = true))

def out (moved : Order → Order) (x : Pipeline) : PipeAct → Pipeline
  | .tryPush order => { x with queue := x.queue.goto .producer (.pushLoad order) }
  -- `try_push` returns true with the store of the sequence number
  | .producer =>
    { x with
      queue := x.queue.access moved .producer, next := x.next + (x.queue.pc .producer).stores }
  | .tryPop => { x with queue := x.queue.goto .consumer .popLoad }
  | .consumer =>
    match x.queue.pc .consumer with
    | .popStore _ result => { x with queue := x.queue.access moved .consumer, received := result }
    | _ => { x with queue := x.queue.access moved .consumer }
  | .fails t => { x with queue := x.queue.fails t }
  | .submit order =>
    match x.engine.submit order x.fills with
    | none => x
    | some (_, fills, engine) =>
      { x with received := none, engine := engine, fills := fills, consumed := x.consumed + 1 }

end PipeAct

/-- the queue for the rounded capacity, and the engine with its prepared symbol -/
def Pipeline.start (capacity : UInt64) (symbol : Bytes) : Pipeline where
  queue := Queue.init capacity
  engine := MatchingEngine.prepared [symbol]

/-- an action is an access of the queue, or none -/
theorem PipeAct.queue_out {moved : Order → Order} {orders : List Order} {x : Pipeline} {a : PipeAct}
    (hok : a.Ok orders x) :
    Relation.ReflTransGen (Queue.Step moved) x.queue (a.out moved x).queue := by
  cases a with
  | tryPush order => exact .single (.tryPush _ _ order (IngressPc.eq_idle hok.1))
  | producer => exact .single (Queue.access_step (IngressPc.ne_idle hok))
  | tryPop => exact .single (.tryPop _ _ (IngressPc.eq_idle hok.1))
  | consumer =>
    have hstep : Queue.Step moved x.queue (x.queue.access moved .consumer) :=
      Queue.access_step (IngressPc.ne_idle hok)
    unfold out
    dsimp only
    split
    · exact .single hstep
    · exact .single hstep
  | fails t =>
    rcases Queue.fails_step moved x.queue t with e | hstep
    · show Relation.ReflTransGen _ x.queue (x.queue.fails t)
      rw [e]
    · exact .single hstep
  | submit order =>
    unfold out
    dsimp only
    split
    · exact .refl
    · exact .refl

/-! ## the replay -/

theorem replay_concat {engine engine₁ engine₂ : MatchingEngine} {fills fills₁ fills₂ : List Fill}
    {orders : List Order} {order : Order} {ack : Ack}
    (h : replay engine fills orders = some (fills₁, engine₁))
    (hs : engine₁.submit order fills₁ = some (ack, fills₂, engine₂)) :
    replay engine fills (orders ++ [order]) = some (fills₂, engine₂) := by
  induction orders generalizing engine fills with
  | nil =>
    cases h
    rw [List.nil_append, replay, hs]
    rfl
  | cons o orders ih =>
    rw [replay] at h
    rw [List.cons_append, replay]
    split at h
    · cases h
    · exact ih h

theorem replay_books {engine engine' : MatchingEngine} {fills fills' : List Fill} {orders : List Order}
    (hb : ∀ symbol, (engine.bookOf symbol).InvFor symbol)
    (h : replay engine fills orders = some (fills', engine')) (symbol : Bytes) :
    (engine'.bookOf symbol).InvFor symbol := by
  induction orders generalizing engine fills with
  | nil =>
    cases h
    exact hb symbol
  | cons o orders ih =>
    obtain ⟨ack, fills₁, engine₁, e, hb₁⟩ := MatchingEngine.submit_total hb o fills
    rw [replay, e] at h
    exact ih hb₁ h

/-! ## the invariant -/

namespace Pipeline
variable {k : ℕ} {orders : List Order} {engine₀ : MatchingEngine} {moved : Order → Order} {x : Pipeline}

/-- the orders that were popped -/
def popped (x : Pipeline) : ℕ := x.consumed + x.received.isSome.toNat

/-- the ring is between the producer and the consumer, and the engine has replayed the orders that were
consumed -/
structure Inv (k : ℕ) (orders : List Order) (engine₀ : MatchingEngine) (x : Pipeline) : Prop where
  spsc : Spsc k orders x.next x.popped x.queue
  received : ∀ order, x.received = some order →
    orders[x.consumed]? = some order ∧ (x.queue.pc .consumer).isIdle = true
  replayed : replay engine₀ [] (orders.take x.consumed) = some (x.fills, x.engine)

theorem Inv.not_received (h : x.Inv k orders engine₀) (hpc : (x.queue.pc .consumer).isIdle = false) :
    x.received = none := by
  cases hr : x.received with
  | none => rfl
  | some order =>
    rw [(h.received order hr).2] at hpc
    cases hpc

/-- a move of the queue in which nothing is handed over -/
theorem Inv.queue {queue : Queue Actor Order} (h : x.Inv k orders engine₀)
    (hq : Spsc k orders x.next x.popped queue)
    (hpc : (x.queue.pc .consumer).isIdle = true → x.received.isSome = true →
      (queue.pc .consumer).isIdle = true) :
    ({ x with queue := queue } : Pipeline).Inv k orders engine₀ := by
  refine ⟨hq, ?_, h.replayed⟩
  intro order hr
  obtain ⟨ho, hidle⟩ := h.received order hr
  exact ⟨ho, hpc hidle (by rw [show x.received = some order from hr]; rfl)⟩

theorem Inv.tryPush (h : x.Inv k orders engine₀) {order : Order}
    (hok : (PipeAct.tryPush order).Ok orders x) :
    ((PipeAct.tryPush order).out moved x).Inv k orders engine₀ := by
  obtain ⟨hidle, ho⟩ := hok
  exact h.queue (h.spsc.tryPush hidle ho) fun hc _ => hc

theorem Inv.tryPop (h : x.Inv k orders engine₀) (hok : PipeAct.tryPop.Ok orders x) :
    (PipeAct.tryPop.out moved x).Inv k orders engine₀ := by
  obtain ⟨hidle, hnone, _⟩ := hok
  refine h.queue (h.spsc.tryPop hidle) ?_
  intro _ hr
  rw [hnone] at hr
  cases hr

/-- an access of the producer leaves the consumer where it is -/
theorem Inv.producer (h : x.Inv k orders engine₀) :
    (PipeAct.producer.out moved x).Inv k orders engine₀ := by
  refine ⟨h.spsc.producer_access moved, ?_, h.replayed⟩
  intro order hr
  obtain ⟨ho, hidle⟩ := h.received order hr
  refine ⟨ho, ?_⟩
  rw [← hidle]
  exact congrArg IngressPc.isIdle (Queue.access_pc_of_ne nofun)

theorem Inv.popped_le (h : x.Inv k orders engine₀) : x.popped ≤ x.next :=
  h.spsc.popped_le_pushed

theorem popped_of_none (hnone : x.received = none) : x.popped = x.consumed := by
  rw [popped, hnone]
  rfl

/-- an access of the consumer: inside of the call, or with the next order as its result -/
theorem Inv.out_consumer (moved : Order → Order) (h : x.Inv k orders engine₀)
    (hok : PipeAct.consumer.Ok orders x) :
    (x.queue.pc .consumer).stores = 0 ∧
        PipeAct.consumer.out moved x = { x with queue := x.queue.access moved .consumer } ∨
      (x.queue.pc .consumer).stores = 1 ∧ ∃ order, orders[x.consumed]? = some order ∧
        PipeAct.consumer.out moved x
          = { x with queue := x.queue.access moved .consumer, received := some order } := by
  rcases h.spsc.consumer_cases with ⟨hs, hne⟩ | ⟨p, order, hpc, ho⟩
  · refine Or.inl ⟨hs, ?_⟩
    unfold PipeAct.out
    dsimp only
    split
    · rename_i p result hpc
      exact absurd hpc (hne p result)
    · rfl
  · rw [popped_of_none (h.not_received hok)] at ho
    refine Or.inr ⟨congrArg IngressPc.stores hpc, order, ho, ?_⟩
    unfold PipeAct.out
    simp only [hpc]

theorem Inv.consumer (h : x.Inv k orders engine₀) (hok : PipeAct.consumer.Ok orders x) :
    (PipeAct.consumer.out moved x).Inv k orders engine₀ := by
  have hnone := h.not_received hok
  have hstep := h.spsc.consumer_access moved
  rcases h.out_consumer moved hok with ⟨hs, e⟩ | ⟨hs, order, ho, e⟩
  · rw [hs] at hstep
    rw [e]
    refine h.queue hstep ?_
    intro _ hr
    rw [hnone] at hr
    cases hr
  · rw [hs, popped_of_none hnone] at hstep
    rw [e]
    refine ⟨hstep, ?_, h.replayed⟩
    intro order' hr
    cases hr
    exact ⟨ho, congrArg IngressPc.isIdle (Queue.access_stores hs)⟩

/-- where the consumer is at a compare-exchange, nothing is received -/
theorem Inv.fails (h : x.Inv k orders engine₀) (t : Actor) :
    ((PipeAct.fails t).out moved x).Inv k orders engine₀ := by
  refine h.queue (h.spsc.fails t) ?_
  intro hidle _
  exact (Queue.fails_isIdle x.queue t .consumer).trans hidle

theorem Inv.submit (h : x.Inv k orders engine₀) {order : Order}
    (hok : (PipeAct.submit order).Ok orders x) :
    ((PipeAct.submit order).out moved x).Inv k orders engine₀ := by
  obtain ⟨hr, hs⟩ := hok
  obtain ⟨⟨ack, fills, engine⟩, e⟩ := Option.isSome_iff_exists.mp hs
  obtain ⟨ho, hidle⟩ := h.received order hr
  have hspsc := h.spsc
  have hpop : x.popped = x.consumed + 1 := by rw [popped, hr]; rfl
  rw [hpop] at hspsc
  unfold PipeAct.out
  dsimp only
  rw [e]
  refine ⟨hspsc, nofun, ?_⟩
  show replay engine₀ [] (orders.take (x.consumed + 1)) = some (fills, engine)
  rw [List.take_add_one, ho]
  exact replay_concat h.replayed e

theorem Inv.act (h : x.Inv k orders engine₀) {a : PipeAct} (hok : a.Ok orders x) :
    (a.out moved x).Inv k orders engine₀ := by
  cases a with
  | tryPush order => exact h.tryPush hok
  | producer => exact h.producer
  | tryPop => exact h.tryPop hok
  | consumer => exact h.consumer hok
  | fails t => exact h.fails t
  | submit order => exact h.submit hok

/-- the engine has a result for every order -/
theorem Inv.submit_isSome {symbol : Bytes} (h : x.Inv k orders (MatchingEngine.prepared [symbol]))
    (order : Order) : (x.engine.submit order x.fills).isSome = true := by
  have hbooks := replay_books (MatchingEngine.prepared_books [symbol]) h.replayed
  obtain ⟨ack, fills, engine, e, _⟩ := MatchingEngine.submit_total hbooks order x.fills
  rw [e]
  rfl

theorem Inv.consumed_le (h : x.Inv k orders engine₀) : x.consumed ≤ orders.length :=
  (Nat.le_add_right ..).trans (h.popped_le.trans h.spsc.items_le)

/-! ## progress -/

/-- what is left for the two threads in their operations; a `try_pop` is started only for an order in
the ring -/
def left (x : Pipeline) (queue : Queue Actor Order) : ℕ :=
  (queue.pc .producer).left 6 + (queue.pc .consumer).left (if x.popped < x.next then 7 else 0)

/-- A bound of what is left to do, where the consumer goes first and the producer works when the ring
is empty. -/
def remaining (orders : List Order) (x : Pipeline) : ℕ :=
  30 * (orders.length - x.next) + 10 * (orders.length - x.popped) + x.received.isSome.toNat
    + x.left x.queue

/-- a move of the queue in which nothing is handed over -/
theorem remaining_queue {queue : Queue Actor Order} (hlt : x.left queue < x.left x.queue) :
    ({ x with queue := queue } : Pipeline).remaining orders < x.remaining orders :=
  Nat.add_lt_add_left hlt _

theorem Inv.remaining_consumer (h : x.Inv k orders engine₀) (hok : PipeAct.consumer.Ok orders x) :
    (PipeAct.consumer.out moved x).remaining orders < x.remaining orders := by
  have hprod : (x.queue.access moved .consumer).pc .producer = x.queue.pc .producer :=
    Queue.access_pc_of_ne nofun
  rcases h.out_consumer moved hok with ⟨hs, e⟩ | ⟨hs, order, ho, e⟩
  · rw [e]
    refine remaining_queue ?_
    unfold left
    rw [hprod]
    exact Nat.add_lt_add_left (h.spsc.consumer_left moved hs (IngressPc.ne_idle hok) 7) _
  · have hlen : x.consumed < orders.length := (List.getElem?_eq_some_iff.mp ho).1
    rw [e]
    unfold remaining left popped
    dsimp only
    have hidle : (if x.consumed + 1 < x.next then 7 else 0) ≤ 7 := by
      split
      · exact Nat.le_refl 7
      · exact Nat.zero_le 7
    rw [hprod, Queue.access_stores hs, h.not_received hok]
    simp only [IngressPc.left, Option.isSome_some, Option.isSome_none, Bool.toNat_true, Bool.toNat_false]
    omega

theorem Inv.remaining_producer (h : x.Inv k orders engine₀) (hok : PipeAct.producer.Ok orders x)
    (hroom : x.next < x.popped + 2^k) :
    (PipeAct.producer.out moved x).remaining orders < x.remaining orders := by
  have hcons : (x.queue.access moved .producer).pc .consumer = x.queue.pc .consumer :=
    Queue.access_pc_of_ne nofun
  unfold PipeAct.out
  rcases (x.queue.pc .producer).stores_cases with hs | hs
  · rw [hs]
    refine remaining_queue ?_
    unfold left
    rw [hcons]
    exact Nat.add_lt_add_right (h.spsc.producer_left moved hroom hs (IngressPc.ne_idle hok) 6) _
  · have hlen := (h.spsc.producer_access moved).items_le
    have hpush : 1 ≤ (x.queue.pc .producer).left 6 := IngressPc.one_le_left hs 6
    have hcons7 := (x.queue.pc .consumer).left_le 7 (if x.popped < x.next then 7 else 0)
    have hidle : x.popped < x.next + 1 := Nat.lt_succ_of_le h.popped_le
    rw [hs] at hlen ⊢
    unfold remaining left
    show 30 * (orders.length - (x.next + 1)) + 10 * (orders.length - x.popped) + _
      + (_ + IngressPc.left (if x.popped < x.next + 1 then 7 else 0) _) < _
    dsimp only
    rw [hcons, Queue.access_stores hs, if_pos hidle, IngressPc.left]
    omega

theorem remaining_tryPush {order : Order} (hok : (PipeAct.tryPush order).Ok orders x) :
    ((PipeAct.tryPush order).out moved x).remaining orders < x.remaining orders := by
  refine remaining_queue ?_
  unfold left Queue.goto
  dsimp only
  rw [Function.update_self, Function.update_of_ne (show Actor.consumer ≠ .producer from nofun),
    IngressPc.eq_idle hok.1]
  exact Nat.add_lt_add_right (Nat.lt_succ_self 5) _

theorem remaining_tryPop (hok : PipeAct.tryPop.Ok orders x) (hlt : x.popped < x.next) :
    (PipeAct.tryPop.out moved x).remaining orders < x.remaining orders := by
  refine remaining_queue ?_
  unfold left Queue.goto
  dsimp only
  rw [Function.update_self, Function.update_of_ne (show Actor.producer ≠ .consumer from nofun),
    IngressPc.eq_idle hok.1, if_pos hlt]
  exact Nat.add_lt_add_left (Nat.lt_succ_self 6) _

theorem remaining_submit {order : Order} (hok : (PipeAct.submit order).Ok orders x) :
    ((PipeAct.submit order).out moved x).remaining orders < x.remaining orders := by
  obtain ⟨hr, hs⟩ := hok
  obtain ⟨⟨ack, fills, engine⟩, e⟩ := Option.isSome_iff_exists.mp hs
  unfold PipeAct.out
  dsimp only
  rw [e]
  unfold remaining left popped
  rw [hr]
  exact Nat.add_lt_add_right (Nat.lt_succ_self _) _

/-- **Progress.**  While orders are left, a thread can do a part of what remains. -/
theorem Inv.progress {symbol : Bytes} (moved : Order → Order)
    (h : x.Inv k orders (MatchingEngine.prepared [symbol])) (hlt : x.consumed < orders.length) :
    ∃ a : PipeAct, a.Ok orders x ∧ (a.out moved x).remaining orders < x.remaining orders := by
  cases hr : x.received with
  | some order =>
    have hok : (PipeAct.submit order).Ok orders x := ⟨hr, h.submit_isSome order⟩
    exact ⟨_, hok, remaining_submit hok⟩
  | none =>
    have hpop := popped_of_none hr
    cases hc : (x.queue.pc .consumer).isIdle with
    | false => exact ⟨.consumer, hc, h.remaining_consumer hc⟩
    | true =>
      by_cases hring : x.popped < x.next
      · have hok : PipeAct.tryPop.Ok orders x := ⟨hc, hr, hlt⟩
        exact ⟨_, hok, remaining_tryPop hok hring⟩
      -- the ring is empty, so there are orders to push and there is room for them
      · have hnext : x.next = x.consumed := Nat.le_antisymm (by omega) (hpop ▸ h.popped_le)
        cases hp : (x.queue.pc .producer).isIdle with
        | false =>
          refine ⟨.producer, hp, h.remaining_producer hp ?_⟩
          have := h.spsc.ring.two_le
          omega
        | true =>
          have hok : (PipeAct.tryPush orders[x.consumed]).Ok orders x :=
            ⟨hp, by rw [hnext]; exact List.getElem?_eq_getElem hlt⟩
          exact ⟨_, hok, remaining_tryPush hok⟩

end Pipeline

/-- the invariant of the runs of the program -/
theorem Pipeline.reach_inv {moved : Order → Order} {orders : List Order} {symbol : Bytes} {fuel : ℕ}
    {requested capacity : UInt64} {x : Pipeline}
    (hcap : roundPowerOfTwo fuel requested = some capacity)
    (hrun : Reach (PipeAct.Ok orders) (PipeAct.out moved) (Pipeline.start capacity symbol) x) :
    ∃ k, x.Inv k orders (MatchingEngine.prepared [symbol]) := by
  obtain ⟨k, hk⟩ := Spsc.init hcap orders
  refine ⟨k, reach_invariant (Pipeline.Inv k orders (MatchingEngine.prepared [symbol])) hrun ?_ ?_⟩
  · exact ⟨hk, nofun, rfl⟩
  · intro y a h hok
    exact h.act hok

/-- from every state of a run the consumer can get all orders -/
theorem Pipeline.can_finish {moved : Order → Order} {orders : List Order} {symbol : Bytes} {fuel : ℕ}
    {requested capacity : UInt64} {x : Pipeline}
    (hcap : roundPowerOfTwo fuel requested = some capacity)
    (hrun : Reach (PipeAct.Ok orders) (PipeAct.out moved) (Pipeline.start capacity symbol) x) :
    ∃ y, Reach (PipeAct.Ok orders) (PipeAct.out moved) x y ∧ y.consumed = orders.length := by
  obtain ⟨k, h⟩ := Pipeline.reach_inv hcap hrun
  refine reach_of_variant (Pipeline.Inv k orders (MatchingEngine.prepared [symbol])) _
    (Pipeline.remaining orders) ?_ h
  intro y hy
  rcases Nat.eq_or_lt_of_le hy.consumed_le with e | hlt
  · exact Or.inl e
  · obtain ⟨a, hok, hless⟩ := hy.progress moved hlt
    exact Or.inr ⟨a, hok, hy.act hok, hless⟩

/-- the accesses of a run of the program are a run of the queue -/
theorem Pipeline.queue_run {moved : Order → Order} {orders : List Order} {x y : Pipeline}
    (hrun : Reach (PipeAct.Ok orders) (PipeAct.out moved) x y) :
    Relation.ReflTransGen (Queue.Step moved) x.queue y.queue := by
  induction hrun with
  | refl => exact .refl
  | tail _ hs ih =>
    obtain ⟨a, hok, rfl⟩ := hs
    exact ih.trans (PipeAct.queue_out hok)

/-- **The pipeline is a sequential replay.**  At every moment the consumer's engine and fills are those
of the orders consumed so far, submitted one after another; the engine has a result for each order that
was popped; once all orders are consumed, they are the replay of the whole list. -/
theorem pipeline_replay (moved : Order → Order) (orders : List Order) (symbol : Bytes) (fuel : ℕ)
    (requested capacity : UInt64) (x : Pipeline)
    (hcap : roundPowerOfTwo fuel requested = some capacity)
    (hrun : Reach (PipeAct.Ok orders) (PipeAct.out moved) (Pipeline.start capacity symbol) x) :
    x.consumed ≤ orders.length ∧
      replay (MatchingEngine.prepared [symbol]) [] (orders.take x.consumed) = some (x.fills, x.engine) ∧
      (∀ order, x.received = some order → (x.engine.submit order x.fills).isSome = true) ∧
      (x.consumed = orders.length →
        replay (MatchingEngine.prepared [symbol]) [] orders = some (x.fills, x.engine)) := by
  obtain ⟨k, h⟩ := Pipeline.reach_inv hcap hrun
  refine ⟨?_, h.replayed, ?_, ?_⟩
  · exact h.consumed_le
  · exact fun order _ => h.submit_isSome order
  · intro e
    have hrep := h.replayed
    rwa [e, List.take_length] at hrep

def seller : Order := { id := 1, symbol := ascii "AAA", side := .sell, priceTicks := 100, quantity := 5 }

def buyer (id quantity : UInt64) : Order :=
  { id := id, symbol := ascii "AAA", side := .buy, priceTicks := 100, quantity := quantity }

def pushes (order : Order) : List PipeAct := .tryPush order :: List.replicate 5 .producer

def pops (order : Order) : List PipeAct := .tryPop :: List.replicate 6 .consumer ++ [.submit order]

/-- In a ring of two cells the third order finds no room, and is pushed after a pop. -/
def fullRing : List PipeAct :=
  pushes seller ++ pushes (buyer 2 3) ++ [.tryPush (buyer 3 4), .producer, .producer] ++ pops seller ++
    pushes (buyer 3 4) ++ pops (buyer 2 3) ++ pops (buyer 3 4)

theorem pipeline_replay_full :
    roundPowerOfTwo 1 2 = some 2 ∧
    ∃ x, Reach (PipeAct.Ok [seller, buyer 2 3, buyer 3 4]) (PipeAct.out id)
        (Pipeline.start 2 (ascii "AAA")) x ∧
      x.consumed = 3 ∧ x.fills.map Fill.quantity = [3, 2] ∧
      replay (MatchingEngine.prepared [ascii "AAA"]) [] [seller, buyer 2 3, buyer 3 4]
        = some (x.fills, x.engine) := by
  have hcap : roundPowerOfTwo 1 2 = some 2 := by decide
  have hrun : (perform (PipeAct.Ok [seller, buyer 2 3, buyer 3 4]) (PipeAct.out id)
        (Pipeline.start 2 (ascii "AAA")) fullRing).map
          (fun x => (x.consumed, x.fills.map Fill.quantity)) = some (3, [3, 2]) := by
    decide +kernel
  obtain ⟨x, hx, e⟩ := Option.map_eq_some_iff.mp hrun
  obtain ⟨hconsumed, hfills⟩ := Prod.mk.inj e
  exact ⟨hcap, x, perform_reach hx, hconsumed, hfills,
    (pipeline_replay id _ (ascii "AAA") 1 2 2 x hcap (perform_reach hx)).2.2.2 hconsumed⟩

end Matching
