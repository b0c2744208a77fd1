import SystemsCourse.Lib.Words
import SystemsCourse.Lib.XorShift
import SystemsCourse.Matching.Cancel
import SystemsCourse.Matching.Engine

/-!
# Generated order streams

Model of `Rng` and `generate_mock_orders` in `capstone/matching/solution-reference/src/mock_data.cpp`.

The arithmetic on signed numbers has no result (`none`) where it overflows.

* `rng_never_degenerates`   the states of the generator;
* `mockOrder_spec`          one round of the loop;
* `accepted_run`            orders with new ids are accepted;
* `generated_accepted`      so are those that were generated;
* `generated_orders`        the whole list, and its replay.
-/

set_option linter.unusedVariables false

namespace Matching
open Wire Family Words

/-! ## the generator -/

namespace Rng

/-- the constructor -/
def new (seed : UInt64) : UInt64 := if seed = 0 then 1 else seed

def stageOne (state : UInt64) : UInt64 := state ^^^ state <<< 7

def stageTwo (state : UInt64) : UInt64 := state ^^^ state >>> 9

def stageThree (state : UInt64) : UInt64 := state ^^^ state <<< 8

/-- the state after `next`, which is also what it returns -/
def next (state : UInt64) : UInt64 := stageThree (stageTwo (stageOne state))

theorem bijective_of_toBitVec {f : UInt64 → UInt64} {g : BitVec 64 → BitVec 64}
    (hg : Function.Bijective g) (h : ∀ x, (f x).toBitVec = g x.toBitVec) : Function.Bijective f := by
  constructor
  · intro x y hxy
    apply UInt64.toBitVec_inj.mp
    apply hg.1
    rw [← h, ← h, hxy]
  · intro y
    obtain ⟨x, hx⟩ := hg.2 y.toBitVec
    exact ⟨UInt64.ofBitVec x, UInt64.toBitVec_inj.mp ((h _).trans hx)⟩

theorem stageOne_bijective : Function.Bijective stageOne :=
  bijective_of_toBitVec (XorShift.left_bijective (show 0 < 7 by decide)) fun _ => rfl

theorem stageTwo_bijective : Function.Bijective stageTwo :=
  bijective_of_toBitVec (XorShift.right_bijective (show 0 < 9 by decide)) fun _ => rfl

theorem stageThree_bijective : Function.Bijective stageThree :=
  bijective_of_toBitVec (XorShift.left_bijective (show 0 < 8 by decide)) fun _ => rfl

theorem next_bijective : Function.Bijective next :=
  stageThree_bijective.comp (stageTwo_bijective.comp stageOne_bijective)

theorem new_ne_zero (seed : UInt64) : new seed ≠ 0 := by
  unfold new
  split_ifs with h
  · decide
  · exact h

theorem iterate_next_ne_zero {state : UInt64} (h : state ≠ 0) (n : ℕ) : next^[n] state ≠ 0 := by
  induction n generalizing state with
  | zero => exact h
  | succ n ih =>
    refine ih fun hzero => h (next_bijective.1 ?_)
    exact hzero

end Rng

/-- **The generator never degenerates.** -/
theorem rng_never_degenerates :
    (∀ seed n, Rng.next^[n] (Rng.new seed) ≠ 0) ∧
      Function.Bijective Rng.stageOne ∧ Function.Bijective Rng.stageTwo ∧
      Function.Bijective Rng.stageThree ∧ Function.Bijective Rng.next ∧
      ∀ seed seed' n, seed ≠ 0 → seed' ≠ 0 → seed ≠ seed' →
        Rng.next^[n] (Rng.new seed) ≠ Rng.next^[n] (Rng.new seed') := by
  refine ⟨fun seed n => Rng.iterate_next_ne_zero (Rng.new_ne_zero seed) n, Rng.stageOne_bijective,
    Rng.stageTwo_bijective, Rng.stageThree_bijective, Rng.next_bijective, ?_⟩
  intro seed seed' n h h' hne heq
  have hnew := Rng.next_bijective.1.iterate n heq
  unfold Rng.new at hnew
  rw [if_neg h, if_neg h'] at hnew
  exact hne hnew

theorem rng_never_degenerates_two :
    (1 : UInt64) ≠ 0 ∧ (2 : UInt64) ≠ 0 ∧
      Rng.next^[1000] (Rng.new 1) ≠ Rng.next^[1000] (Rng.new 2) :=
  ⟨by decide, by decide,
    rng_never_degenerates.2.2.2.2.2 1 2 1000 (by decide) (by decide) (by decide)⟩

/-! ## the stream -/

structure MockDataConfig where
  count : UInt64 := 100000
  seed : UInt64 := 0x5eed
  symbol : Bytes := ascii "NETF"
  centerPriceTicks : Int64 := 10000
  priceBandTicks : Int64 := 500

/-- a signed result, if it does not overflow -/
def checked (z : ℤ) : Option Int64 := if -2^63 ≤ z ∧ z < 2^63 then some (.ofInt z) else none

namespace MockDataConfig

/-- `price_band_ticks`, or 1 if it is not positive -/
def bandTicks (config : MockDataConfig) : Int64 :=
  if 0 < config.priceBandTicks then config.priceBandTicks else 1

def band (config : MockDataConfig) : UInt64 := config.bandTicks.toUInt64

end MockDataConfig

/-- the order of a round, and the state of the generator after it -/
def mockOrder (config : MockDataConfig) (index state : UInt64) : Option (Order × UInt64) := do
  let state₁ := Rng.next state
  let offset ← checked ((state₁ % (2 * config.band + 1)).toInt64.toInt - config.band.toInt64.toInt)
  let state₂ := Rng.next state₁
  let side := if state₂ &&& 1 = 0 then Side.buy else .sell
  let priceTicks ← checked (config.centerPriceTicks.toInt + offset.toInt)
  let state₃ := Rng.next state₂
  return ({ id := index + 1, symbol := config.symbol, side := side, priceTicks := priceTicks,
            quantity := state₃ % 100 + 1, sequence := index + 1, tif := .goodTillCancel }, state₃)

/-- the body of the loop -/
def mockRound (config : MockDataConfig) (x : List Order × UInt64) (index : ℕ) :
    Option (List Order × UInt64) := do
  let (order, state) ← mockOrder config (.ofNat index) x.2
  return (x.1 ++ [order], state)

def generateMockOrders (config : MockDataConfig) : Option (List Order) := do
  let (orders, _) ← (List.range config.count.toNat).foldlM (mockRound config) ([], Rng.new config.seed)
  return orders

/-! ## one round -/

theorem checked_of_le {z : ℤ} (hlo : -2^63 ≤ z) (hhi : z < 2^63) :
    ∃ n, checked z = some n ∧ n.toInt = z :=
  ⟨.ofInt z, if_pos ⟨hlo, hhi⟩, Int64.toInt_ofInt_of_le hlo hhi⟩

/-- an order that the loop may push in the round `index` -/
structure MockOrder (config : MockDataConfig) (index : ℕ) (o : Order) : Prop where
  id : o.id.toNat = index + 1
  symbol : o.symbol = config.symbol
  sequence : o.sequence.toNat = index + 1
  lower : config.centerPriceTicks.toInt - config.bandTicks.toInt ≤ o.priceTicks.toInt
  upper : o.priceTicks.toInt ≤ config.centerPriceTicks.toInt + config.bandTicks.toInt
  quantity : 1 ≤ o.quantity.toNat ∧ o.quantity.toNat ≤ 100

section
variable {config : MockDataConfig}
  (hlo : 1 ≤ config.centerPriceTicks.toInt - config.bandTicks.toInt)
  (hhi : config.centerPriceTicks.toInt + config.bandTicks.toInt ≤ 2^63 - 1)
include hlo hhi

/-- the signed arithmetic of a round does not overflow, and the price is in the band -/
theorem mockPrice (state : UInt64) :
    ∃ offset price,
      checked ((state % (2 * config.band + 1)).toInt64.toInt - config.band.toInt64.toInt) = some offset ∧
      checked (config.centerPriceTicks.toInt + offset.toInt) = some price ∧
      config.centerPriceTicks.toInt - config.bandTicks.toInt ≤ price.toInt ∧
      price.toInt ≤ config.centerPriceTicks.toInt + config.bandTicks.toInt := by
  have hpos : 0 < config.bandTicks.toInt := by
    unfold MockDataConfig.bandTicks
    split_ifs with h
    · exact Int64.lt_iff_toInt_lt.mp h
    · decide
  have hband : (config.band.toNat : ℤ) = config.bandTicks.toInt := toNat_toUInt64 hpos.le
  have hbint : config.band.toInt64.toInt = config.bandTicks.toInt := rfl
  -- the two bounds put twice the band below `2^63`
  have hwidth : (2 * config.band + 1).toNat = 2 * config.band.toNat + 1 := by
    have htwo : (2 * config.band).toNat = 2 * config.band.toNat :=
      toNat_mul_of_lt (show 2 * config.band.toNat < 2^64 by omega)
    rw [toNat_succ_of_lt (by omega), htwo]
  have hlt : (state % (2 * config.band + 1)).toNat < 2 * config.band.toNat + 1 := by
    rw [UInt64.toNat_mod, hwidth]
    exact Nat.mod_lt _ (Nat.succ_pos _)
  have hint := toInt_toInt64 (show (state % (2 * config.band + 1)).toNat < 2^63 by omega)
  rw [hint, hbint]
  obtain ⟨offset, hoffset, eo⟩ := checked_of_le
    (show -2^63 ≤ ((state % (2 * config.band + 1)).toNat : ℤ) - config.bandTicks.toInt by omega)
    (by omega)
  obtain ⟨price, hprice, ep⟩ := checked_of_le
    (show -2^63 ≤ config.centerPriceTicks.toInt + offset.toInt by omega) (by omega)
  exact ⟨offset, price, hoffset, hprice, by omega, by omega⟩

theorem mockOrder_spec {index : ℕ} (hindex : index < config.count.toNat) (state : UInt64) :
    ∃ o state', mockOrder config (.ofNat index) state = some (o, state') ∧ MockOrder config index o := by
  have hcount := config.count.toNat_lt
  have hid : (UInt64.ofNat index + 1).toNat = index + 1 := by
    have hofNat : (UInt64.ofNat index).toNat = index :=
      UInt64.toNat_ofNat_of_lt' (show index < 2^64 by omega)
    rw [toNat_succ_of_lt (by omega), hofNat]
  have hquantity (n : UInt64) : (n % 100 + 1).toNat = n.toNat % 100 + 1 := by
    have hmod : (n % 100).toNat = n.toNat % 100 := UInt64.toNat_mod n 100
    rw [toNat_succ_of_lt (by omega), hmod]
  obtain ⟨offset, price, hoffset, hprice, hlower, hupper⟩ := mockPrice hlo hhi (Rng.next state)
  unfold mockOrder
  dsimp only
  rw [hoffset]
  dsimp only [Option.bind_eq_bind, Option.bind_some]
  rw [hprice]
  refine ⟨_, _, rfl, hid, rfl, hid, hlower, hupper, ?_⟩
  rw [hquantity]
  omega

/-- the first rounds -/
theorem mockRounds {n : ℕ} (hn : n ≤ config.count.toNat) (state : UInt64) :
    ∃ orders state', (List.range n).foldlM (mockRound config) ([], state) = some (orders, state') ∧
      List.Forall₂ (MockOrder config) (List.range n) orders := by
  induction n with
  | zero => exact ⟨[], state, rfl, .nil⟩
  | succ n ih =>
    obtain ⟨orders, state₁, e, hall⟩ := ih (Nat.le_of_succ_le hn)
    obtain ⟨o, state₂, eo, ho⟩ := mockOrder_spec hlo hhi (Nat.lt_of_succ_le hn) state₁
    refine ⟨orders ++ [o], state₂, ?_, ?_⟩
    · rw [List.range_succ, List.foldlM_append, e]
      dsimp only [Option.bind_eq_bind, Option.bind_some]
      rw [List.foldlM_cons, mockRound, eo]
      rfl
    · rw [List.range_succ]
      exact List.rel_append hall (.cons ho .nil)

end

/-! ## submissions that are accepted -/

/-- `e` is the answer of a `submit` that accepted the order -/
def AcceptedAs (o : Order) (e : Bytes × Outcome) : Prop :=
  ∃ ack fills, e = (o.symbol, .ack ack fills) ∧ ack.orderId = o.id ∧ ack.accepted = true

/-- an order that passes the checks of `submit` if its id is new -/
def Order.Valid (o : Order) : Prop := o.id ≠ 0 ∧ o.quantity ≠ 0 ∧ 0 < o.priceTicks

theorem MatchingEngine.submit_valid {engine : MatchingEngine}
    (h : ∀ symbol, (engine.bookOf symbol).InvFor symbol) {o : Order} (hvalid : o.Valid)
    (hnew : ¬ (engine.bookOf o.symbol).Resting o.id) :
    ∃ e engine', engine.perform (.submit o) = some (e, engine') ∧ AcceptedAs o e ∧
      (∀ symbol, (engine'.bookOf symbol).InvFor symbol) ∧
      ∀ symbol id, id ≠ o.id → ¬ (engine.bookOf symbol).Resting id →
        ¬ (engine'.bookOf symbol).Resting id := by
  obtain ⟨hinv, hsym⟩ := h o.symbol
  obtain ⟨hid, hquantity, hprice⟩ := hvalid
  set stamped := MatchingEngine.stamp engine.nextSequence o with hstamped
  have hsame : stamped.symbol = o.symbol ∧ stamped.id = o.id ∧ stamped.quantity = o.quantity ∧
      stamped.priceTicks = o.priceTicks := by
    rw [hstamped]
    unfold MatchingEngine.stamp
    split_ifs <;> exact ⟨rfl, rfl, rfl, rfl⟩
  obtain ⟨esym, eid, equantity, eprice⟩ := hsame
  have hdead : (engine.bookOf o.symbol).live.lookup o.id = none := by
    rw [hinv.resting_iff] at hnew
    exact Option.eq_none_iff_forall_ne_some.mpr fun s hs => hnew ⟨s, hs⟩
  have haccepts : (engine.bookOf o.symbol).Accepts stamped := by
    refine ⟨esym.trans hsym.symm, ?_, ?_, ?_, ?_⟩
    · rw [eid]; exact hid
    · rw [equantity]; exact hquantity
    · rw [eprice]; exact hprice
    · rw [eid]; exact hdead
  obtain ⟨remaining, book', e, _, hinv', hsym', _⟩ :=
    OrderBook.submit_accepted hinv stamped [] haccepts
  have hstep : (engine.bookOf o.symbol).step (.submit stamped) = some book' := by
    rw [OrderBook.step, e]
    rfl
  obtain ⟨engine', he, hbooks, _⟩ := MatchingEngine.submit_book e
  refine ⟨_, engine', by rw [MatchingEngine.perform, he]; rfl, ⟨_, _, rfl, eid, rfl⟩, ?_, ?_⟩
  · intro symbol
    rw [hbooks]
    by_cases hs : symbol = o.symbol
    · subst hs
      rw [Function.update_self]
      exact ⟨hinv', hsym'.trans hsym⟩
    · rw [Function.update_of_ne hs]
      exact h symbol
  · intro symbol id hne hrest
    rw [hbooks]
    by_cases hs : symbol = o.symbol
    · subst hs
      rw [Function.update_self]
      refine OrderBook.resting_step hinv hstep hrest ?_
      rintro order horder _
      cases horder
      rw [eid]
      exact hne.symm
    · rw [Function.update_of_ne hs]
      exact hrest

/-- **Valid orders with different new ids are all accepted.** -/
theorem accepted_run {engine : MatchingEngine}
    (h : ∀ symbol, (engine.bookOf symbol).InvFor symbol) {orders : List Order}
    (hvalid : ∀ o ∈ orders, o.Valid) (hids : (orders.map Order.id).Nodup)
    (hnew : ∀ o ∈ orders, ¬ (engine.bookOf o.symbol).Resting o.id) :
    ∃ log engine', run MatchingEngine.perform engine (orders.map .submit) = some (log, engine') ∧
      List.Forall₂ AcceptedAs orders log := by
  induction orders generalizing engine with
  | nil => exact ⟨[], engine, rfl, .nil⟩
  | cons o orders ih =>
    rw [List.map_cons, List.nodup_cons] at hids
    obtain ⟨hfresh, hids⟩ := hids
    obtain ⟨e, engine₁, e1, ho, hbooks, hrest⟩ := MatchingEngine.submit_valid h
      (hvalid o List.mem_cons_self) (hnew o List.mem_cons_self)
    have hnew₁ : ∀ o' ∈ orders, ¬ (engine₁.bookOf o'.symbol).Resting o'.id := by
      intro o' ho'
      refine hrest _ _ ?_ (hnew o' (List.mem_cons_of_mem _ ho'))
      intro heq
      exact hfresh (heq ▸ List.mem_map_of_mem ho')
    obtain ⟨log, engine', e2, hlog⟩ :=
      ih hbooks (fun o' ho' => hvalid o' (List.mem_cons_of_mem _ ho')) hids hnew₁
    refine ⟨e :: log, engine', ?_, .cons ho hlog⟩
    rw [List.map_cons, run_cons, e1, Option.bind_some, e2]
    rfl

/-! ## the replay -/

theorem MockOrder.valid {config : MockDataConfig}
    (hlo : 1 ≤ config.centerPriceTicks.toInt - config.bandTicks.toInt) {index : ℕ} {o : Order}
    (h : MockOrder config index o) : o.Valid := by
  have hid := h.id
  have hlower := h.lower
  obtain ⟨hquantity, _⟩ := h.quantity
  refine ⟨?_, ?_, Int64.lt_iff_toInt_lt.mpr (show 0 < o.priceTicks.toInt by omega)⟩
  · intro hzero
    rw [hzero] at hid
    cases hid
  · intro hzero
    rw [hzero] at hquantity
    cases hquantity

theorem map_of_forall₂ {config : MockDataConfig} {indices : List ℕ} {orders : List Order} {f : Order → ℕ}
    (hf : ∀ {index o}, MockOrder config index o → f o = index + 1)
    (h : List.Forall₂ (MockOrder config) indices orders) :
    orders.map f = indices.map (· + 1) := by
  induction h with
  | nil => rfl
  | cons ho _ ih => rw [List.map_cons, List.map_cons, hf ho, ih]

theorem exists_mockOrder {config : MockDataConfig} {indices : List ℕ} {orders : List Order}
    (h : List.Forall₂ (MockOrder config) indices orders) {o : Order} (ho : o ∈ orders) :
    ∃ index, MockOrder config index o := by
  induction h with
  | nil => cases ho
  | cons hfirst _ ih =>
    cases ho with
    | head => exact ⟨_, hfirst⟩
    | tail _ ho => exact ih ho

/-- the list is made of the orders of the rounds -/
theorem generateMockOrders_spec {config : MockDataConfig}
    (hlo : 1 ≤ config.centerPriceTicks.toInt - config.bandTicks.toInt)
    (hhi : config.centerPriceTicks.toInt + config.bandTicks.toInt ≤ 2^63 - 1) :
    ∃ orders, generateMockOrders config = some orders ∧
      List.Forall₂ (MockOrder config) (List.range config.count.toNat) orders := by
  obtain ⟨orders, state, e, hall⟩ := mockRounds hlo hhi (Nat.le_refl _) (Rng.new config.seed)
  refine ⟨orders, ?_, hall⟩
  unfold generateMockOrders
  rw [e]
  rfl

/-- no order rests in a new engine -/
theorem MatchingEngine.prepared_not_resting (symbols : List Bytes) (symbol : Bytes) (id : UInt64) :
    ¬ ((MatchingEngine.prepared symbols).bookOf symbol).Resting id := by
  rintro ⟨s, hs⟩
  rw [(MatchingEngine.bookOf_prepared symbols).1, OrderBook.ids, OrderBook.orders_new] at hs
  cases hs

/-- **generated orders are accepted**, whatever symbols the engine knows -/
theorem generated_accepted {config : MockDataConfig}
    (hlo : 1 ≤ config.centerPriceTicks.toInt - config.bandTicks.toInt) {n : ℕ} {orders : List Order}
    (h : List.Forall₂ (MockOrder config) (List.range n) orders) (symbols : List Bytes) :
    ∃ log engine, run MatchingEngine.perform (.prepared symbols) (orders.map .submit)
        = some (log, engine) ∧ List.Forall₂ AcceptedAs orders log := by
  have hvalid : ∀ o ∈ orders, o.Valid := by
    intro o ho
    obtain ⟨index, hindex⟩ := exists_mockOrder h ho
    exact hindex.valid hlo
  have hids : (orders.map Order.id).Nodup := by
    apply List.Nodup.of_map UInt64.toNat
    rw [List.map_map, map_of_forall₂ (f := UInt64.toNat ∘ Order.id) (fun h => h.id) h]
    exact List.nodup_range.map (add_left_injective 1)
  exact accepted_run (MatchingEngine.prepared_books symbols) hvalid hids
    fun o _ => MatchingEngine.prepared_not_resting _ _ _

/-- **Generated order streams replay without a rejection.** -/
theorem generated_orders (config : MockDataConfig)
    (hlo : 1 ≤ config.centerPriceTicks.toInt - config.bandTicks.toInt)
    (hhi : config.centerPriceTicks.toInt + config.bandTicks.toInt ≤ 2^63 - 1) :
    ∃ orders, generateMockOrders config = some orders ∧
      (∀ o ∈ orders, config.centerPriceTicks.toInt - config.bandTicks.toInt ≤ o.priceTicks.toInt ∧
        o.priceTicks.toInt ≤ config.centerPriceTicks.toInt + config.bandTicks.toInt ∧
        1 ≤ o.quantity.toNat ∧ o.quantity.toNat ≤ 100) ∧
      orders.map (fun o => o.id.toNat) = List.range' 1 config.count.toNat ∧
      orders.map (fun o => o.sequence.toNat) = List.range' 1 config.count.toNat ∧
      ∃ log engine, run MatchingEngine.perform MatchingEngine.new (orders.map .submit)
          = some (log, engine) ∧
        List.Forall₂ AcceptedAs orders log := by
  obtain ⟨orders, hgenerate, hall⟩ := generateMockOrders_spec hlo hhi
  have hrange : (List.range config.count.toNat).map (· + 1) = List.range' 1 config.count.toNat := by
    rw [List.range_eq_range', ← List.range'_succ_left]
  have hids := (map_of_forall₂ (f := fun o => o.id.toNat) (fun h => h.id) hall).trans hrange
  have hsequences :=
    (map_of_forall₂ (f := fun o => o.sequence.toNat) (fun h => h.sequence) hall).trans hrange
  refine ⟨orders, hgenerate, fun o ho => ?_, hids, hsequences, generated_accepted hlo hall []⟩
  obtain ⟨index, h⟩ := exists_mockOrder hall ho
  exact ⟨h.lower, h.upper, h.quantity⟩

/-- the limits of the prices -/
def wideConfig : MockDataConfig :=
  { count := 3, seed := 0, symbol := [], centerPriceTicks := 4611686018427387904,
    priceBandTicks := 4611686018427387903 }

theorem generated_orders_wide :
    wideConfig.centerPriceTicks.toInt - wideConfig.bandTicks.toInt = 1 ∧
      wideConfig.centerPriceTicks.toInt + wideConfig.bandTicks.toInt = 2^63 - 1 ∧
      ∃ orders, generateMockOrders wideConfig = some orders ∧
        orders.map (fun o => o.id.toNat) = [1, 2, 3] := by
  obtain ⟨orders, e, _, hids, _⟩ := generated_orders wideConfig (by decide) (by decide)
  exact ⟨by decide, by decide, orders, e, hids⟩

end Matching
