import Mathlib.Data.Finmap
import SystemsCourse.Lib.Frames
import SystemsCourse.Lib.OrdMap

/-!
# The order book

Model of `capstone/matching/solution-reference/src/order_book.cpp` and `order.hpp`.

The source writes the matching loop and the scan of `cancel` twice, for `bids_` and for `asks_`,
with the same body; here they take the side as a parameter.  `Side.better s` is the comparator of
the map of the side `s`, so that its first level has the best price.

`front()` on an empty deque is undefined: `matchLoop` and `submit` then have no result (`none`).
-/

set_option linter.unusedVariables false

namespace Matching
open Wire

inductive Side where
  | buy
  | sell
deriving DecidableEq, Repr

inductive TimeInForce where
  | goodTillCancel
  | immediateOrCancel
deriving DecidableEq, Repr

structure Order where
  id : UInt64 := 0
  symbol : Bytes := []
  side : Side := .buy
  priceTicks : Int64 := 0
  quantity : UInt64 := 0
  sequence : UInt64 := 0
  tif : TimeInForce := .goodTillCancel
deriving DecidableEq, Repr

structure Fill where
  takerId : UInt64
  makerId : UInt64
  takerSide : Side
  priceTicks : Int64
  quantity : UInt64
  sequence : UInt64
deriving DecidableEq, Repr

structure Ack where
  orderId : UInt64
  accepted : Bool
  remaining : UInt64
  reason : Bytes
deriving DecidableEq, Repr

structure Level where
  orders : List Order
deriving DecidableEq, Repr

namespace Side

def opposite : Side → Side
  | .buy => .sell
  | .sell => .buy

/-- the comparator of `Bids` (`std::greater`) and of `Asks` (`std::less`) -/
def better : Side → Int64 → Int64 → Prop
  | .buy, a, b => b < a
  | .sell, a, b => a < b

instance (s : Side) : DecidableRel s.better := fun a b =>
  match s with
  | .buy => inferInstanceAs (Decidable (b < a))
  | .sell => inferInstanceAs (Decidable (a < b))

instance (s : Side) : IsTrans Int64 s.better where
  trans a b c hab hbc := by
    cases s with
    | buy => exact Int64.lt_trans hbc hab
    | sell => exact Int64.lt_trans hab hbc

end Side

abbrev Levels (s : Side) := OrdMap Int64 Level s.better

/-- `live_orders_` -/
abbrev Live := Finmap fun _ : UInt64 => Side

/-- the lambda `crosses` of `submit` -/
def Order.crosses (order : Order) (makerPrice : Int64) : Bool :=
  match order.side with
  | .buy => decide (makerPrice ≤ order.priceTicks)
  | .sell => decide (makerPrice ≥ order.priceTicks)

/-- the fill of `order` against `maker` -/
def Order.fill (order maker : Order) (traded : UInt64) : Fill :=
  ⟨order.id, maker.id, order.side, maker.priceTicks, traded, order.sequence⟩

/-- the first level after its front order `maker` traded; an exhausted order is popped, and a level
that has become empty is erased -/
def Level.trade (maker : Order) (rest : List Order) (traded : UInt64) : Option Level :=
  if maker.quantity - traded = 0 then
    if rest = [] then none else some ⟨rest⟩
  else some ⟨{ maker with quantity := maker.quantity - traded } :: rest⟩

theorem toNat_min (a b : UInt64) : (min a b).toNat = min a.toNat b.toNat := by
  show (if a ≤ b then a else b).toNat = _
  split
  · rename_i h
    have := UInt64.le_iff_toNat_le.mp h
    omega
  · rename_i h
    have : ¬ a.toNat ≤ b.toNat := fun hc => h (UInt64.le_iff_toNat_le.mpr hc)
    omega

theorem toNat_sub_min_left (a b : UInt64) : (a - min a b).toNat = a.toNat - min a.toNat b.toNat := by
  have hm := toNat_min a b
  rw [UInt64.toNat_sub_of_le _ _ (UInt64.le_iff_toNat_le.mpr (by omega)), hm]

theorem toNat_sub_min_right (a b : UInt64) :
    (b - min a b).toNat = b.toNat - min a.toNat b.toNat := by
  have hm := toNat_min a b
  rw [UInt64.toNat_sub_of_le _ _ (UInt64.le_iff_toNat_le.mpr (by omega)), hm]

def Levels.count {s : Side} (levels : Levels s) : Nat :=
  (levels.entries.map fun e => e.2.orders.length).sum

/-- best price first, and in each price in order of arrival -/
def Levels.orders {s : Side} (levels : Levels s) : List Order :=
  levels.entries.flatMap fun e => e.2.orders

/-- a round of the loop takes an order from the book or ends the demand -/
theorem Levels.trade_lt {s : Side} {levels : Levels s} {price : Int64} {level : Level}
    {maker : Order} {rest : List Order} {remaining : UInt64}
    (hb : levels.begin? = some (price, level)) (hl : level.orders = maker :: rest)
    (hr : remaining > 0) :
    Levels.count (levels.alterBegin fun _ => Level.trade maker rest (min remaining maker.quantity))
        + (remaining - min remaining maker.quantity).toNat
      < Levels.count levels + remaining.toNat := by
  obtain ⟨es, he⟩ := List.head?_eq_some_iff.mp hb
  have hpos : 0 < remaining.toNat := UInt64.lt_iff_toNat_lt.mp hr
  have hsub := toNat_sub_min_left remaining maker.quantity
  have hq := toNat_sub_min_right remaining maker.quantity
  unfold Levels.count OrdMap.alterBegin
  dsimp only
  rw [he, hsub]
  simp only [OrdMap.alterHead, List.map_cons, List.sum_cons, hl, List.length_cons]
  unfold Level.trade
  split_ifs with h1 h2
  · simp only
    omega
  · simp only [List.map_cons, List.sum_cons]
    omega
  · have : (maker.quantity - min remaining maker.quantity).toNat ≠ 0 := fun h =>
      h1 (UInt64.toNat.inj h)
    simp only [List.map_cons, List.sum_cons, List.length_cons]
    omega

/-- the loop of `submit` on the side opposite to the order; its result is the levels, the live
orders, the remaining quantity and the fills -/
def matchLoop {s : Side} (order : Order) (levels : Levels s) (live : Live) (remaining : UInt64)
    (fills : List Fill) : Option (Levels s × Live × UInt64 × List Fill) :=
  if hr : remaining > 0 then
    match hb : levels.begin? with
    | none => some (levels, live, remaining, fills)
    | some (price, level) =>
      if order.crosses price = false then some (levels, live, remaining, fills)
      else
        match hl : level.orders with
        | [] => none
        | maker :: rest =>
          let traded := min remaining maker.quantity
          matchLoop order (levels.alterBegin fun _ => Level.trade maker rest traded)
            (if maker.quantity - traded = 0 then live.erase maker.id else live)
            (remaining - traded) (fills ++ [order.fill maker traded])
  else some (levels, live, remaining, fills)
termination_by Levels.count levels + remaining.toNat
decreasing_by exact Levels.trade_lt hb hl hr

structure OrderBook where
  symbol : Bytes
  bids : Levels .buy
  asks : Levels .sell
  live : Live

namespace OrderBook

/-- the constructor -/
def new (symbol : Bytes) : OrderBook := ⟨symbol, OrdMap.empty, OrdMap.empty, ∅⟩

def levels (book : OrderBook) : (s : Side) → Levels s
  | .buy => book.bids
  | .sell => book.asks

def setLevels (book : OrderBook) : (s : Side) → Levels s → OrderBook
  | .buy, bids => { book with bids := bids }
  | .sell, asks => { book with asks := asks }

/-- `push_back` on the level of the price, which `operator[]` creates if need be -/
def pushBack (order : Order) (level : Option Level) : Level :=
  ⟨(level.getD ⟨[]⟩).orders ++ [order]⟩

/-- `emplace` keeps an entry that is there -/
def emplace (live : Live) (id : UInt64) (side : Side) : Live :=
  if live.lookup id = none then live.insert id side else live

/-- what `submit` does after its loop -/
def rest (book : OrderBook) (order : Order) (remaining : UInt64) : OrderBook :=
  if remaining > 0 ∧ order.tif = .goodTillCancel then
    { book.setLevels order.side ((book.levels order.side).upsert order.priceTicks
        (pushBack { order with quantity := remaining })) with
      live := emplace book.live order.id order.side }
  else book

def submit (book : OrderBook) (order : Order) (fills : List Fill) :
    Option (Ack × List Fill × OrderBook) :=
  if order.symbol ≠ book.symbol then
    some (⟨order.id, false, 0, ascii "symbol mismatch"⟩, fills, book)
  else if order.id = 0 ∨ order.quantity = 0 ∨ order.priceTicks ≤ 0 then
    some (⟨order.id, false, 0, ascii "invalid order"⟩, fills, book)
  else if (book.live.lookup order.id).isSome then
    some (⟨order.id, false, 0, ascii "duplicate live order id"⟩, fills, book)
  else
    match matchLoop order (book.levels order.side.opposite) book.live order.quantity fills with
    | none => none
    | some (levels, live, remaining, fills) =>
      some (⟨order.id, true, remaining, ascii "accepted"⟩, fills,
        rest { book.setLevels order.side.opposite levels with live := live } order remaining)

/-- the body of the loop of `cancel` on one level: `none` if the order is not there, otherwise the
level without it, or `some none` if it has become empty -/
def removeOrder (id : UInt64) (level : Level) : Option (Option Level) :=
  if level.orders.any (fun o => o.id == id) then
    some (if level.orders.eraseP (fun o => o.id == id) = [] then none
      else some ⟨level.orders.eraseP fun o => o.id == id⟩)
  else none

def cancel (book : OrderBook) (id : UInt64) : Bool × OrderBook :=
  match book.live.lookup id with
  | none => (false, book)
  | some side =>
    match (book.levels side).alterFirst (removeOrder id) with
    | some levels => (true, { book.setLevels side levels with live := book.live.erase id })
    -- the `return false` at the end of the source
    | none => (false, book)

def bestBid (book : OrderBook) : Option Int64 := book.bids.begin?.map Prod.fst

def bestAsk (book : OrderBook) : Option Int64 := book.asks.begin?.map Prod.fst

/-- the resting orders of a side -/
def orders (book : OrderBook) (s : Side) : List Order := Levels.orders (book.levels s)

end OrderBook

/-! ## runs -/

inductive Op where
  | submit (order : Order)
  | cancel (id : UInt64)

/-- one call; the fills go to a vector that nothing else reads -/
def OrderBook.step (book : OrderBook) : Op → Option OrderBook
  | .submit order => (book.submit order []).map fun r => r.2.2
  | .cancel id => some (book.cancel id).2

def OrderBook.run (book : OrderBook) : List Op → Option OrderBook
  | [] => some book
  | op :: ops => (book.step op).bind fun book' => book'.run ops

end Matching
