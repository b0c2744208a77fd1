import SystemsCourse.Lib.Greedy
import SystemsCourse.Matching.OrderBook

/-!
# The matching loop is greedy

`Filed` is the part of the representation invariant that concerns one side.  `matchLoop_spec`: on a
side whose orders are `X ++ Y`, where the orders of `X` cross and those of `Y` do not, the loop
meets the demand greedily from `X`.  A round trades with the first order (`matchLoop_trade`) or is
the last (`matchLoop_stop`, `matchLoop_zero`).
-/

set_option linter.unusedVariables false

namespace Matching
open Wire Greedy

def Order.qty (o : Order) : ℕ := o.quantity.toNat

/-- what is left of an order after `n` of it traded -/
def Order.reduce (o : Order) (n : ℕ) : Order :=
  { o with quantity := o.quantity - UInt64.ofNat n }

theorem Order.qty_reduce (o : Order) (n : ℕ) (h : n ≤ o.qty) : (o.reduce n).qty = o.qty - n := by
  have hlt : n < 2^64 := lt_of_le_of_lt h o.quantity.toNat_lt
  have hn : (UInt64.ofNat n).toNat = n := UInt64.toNat_ofNat_of_lt' hlt
  show (o.quantity - UInt64.ofNat n).toNat = _
  rw [UInt64.toNat_sub_of_le _ _ (UInt64.le_iff_toNat_le.mpr (by rw [hn]; exact h)), hn]
  rfl

/-- an order as it may rest under the price `p` on the side `s` -/
structure Order.Rests (symbol : Bytes) (s : Side) (p : Int64) (o : Order) : Prop where
  price : o.priceTicks = p
  price_pos : 0 < p
  side : o.side = s
  symbol : o.symbol = symbol
  id : o.id ≠ 0
  quantity : 0 < o.quantity

/-- no level is empty, and each order is filed under its price -/
def Filed (symbol : Bytes) {s : Side} (levels : Levels s) : Prop :=
  ∀ e ∈ levels.entries, e.2.orders ≠ [] ∧ ∀ o ∈ e.2.orders, o.Rests symbol s e.1

/-- the fills of `order` for what was taken from the makers -/
def Order.fills (order : Order) (t : List (Order × ℕ)) : List Fill :=
  t.map fun x => order.fill x.1 (UInt64.ofNat x.2)

section
variable {s : Side} {symbol : Bytes} {levels : Levels s}

theorem Levels.orders_eq {es : List (Int64 × Level)} {p : Int64} {level : Level}
    (h : levels.entries = (p, level) :: es) :
    Levels.orders levels = level.orders ++ es.flatMap fun e => e.2.orders := by
  rw [Levels.orders, h, List.flatMap_cons]

/-- the first order is the front of the first level -/
theorem Filed.front (hf : Filed symbol levels) {a : Order} {l : List Order}
    (h : Levels.orders levels = a :: l) :
    ∃ rest es, levels.entries = (a.priceTicks, ⟨a :: rest⟩) :: es ∧
      l = rest ++ es.flatMap fun e => e.2.orders := by
  cases hes : levels.entries with
  | nil =>
    rw [Levels.orders, hes] at h
    cases h
  | cons e es =>
    obtain ⟨p, ⟨os⟩⟩ := e
    obtain ⟨hne, hos⟩ := hf (p, ⟨os⟩) (by rw [hes]; exact List.mem_cons_self ..)
    rw [Levels.orders_eq hes] at h
    cases os with
    | nil => exact absurd rfl hne
    | cons b rest =>
      obtain ⟨rfl, rfl⟩ := List.cons.inj h
      have hp := (hos b (List.mem_cons_self ..)).price
      dsimp only at hp
      rw [hp]
      exact ⟨rest, es, rfl, rfl⟩

theorem Filed.of_nil (hf : Filed symbol levels) (h : Levels.orders levels = []) :
    levels.entries = [] := by
  cases hes : levels.entries with
  | nil => rfl
  | cons e es =>
    rw [Levels.orders, hes, List.flatMap_cons] at h
    exact absurd (List.append_eq_nil_iff.mp h).1
      (hf e (by rw [hes]; exact List.mem_cons_self ..)).1

theorem Filed.rests (hf : Filed symbol levels) {o : Order} (h : o ∈ Levels.orders levels) :
    o.Rests symbol s o.priceTicks := by
  obtain ⟨e, he, ho⟩ := List.mem_flatMap.mp h
  have hr := (hf e he).2 o ho
  rw [hr.price]
  exact hr

/-! ## one round -/

variable (order : Order) (live : Live) (remaining : UInt64) (fills : List Fill)

theorem matchLoop_zero :
    matchLoop order levels live 0 fills = some (levels, live, 0, fills) := by
  rw [matchLoop]
  exact dif_neg (by decide)

theorem matchLoop_nil (he : levels.entries = []) :
    matchLoop order levels live remaining fills = some (levels, live, remaining, fills) := by
  rw [matchLoop]
  split
  · split
    · rfl
    · rename_i hb
      rw [OrdMap.begin?, he] at hb
      cases hb
  · rfl

section
variable {p : Int64} {es : List (Int64 × Level)}

/-- the best price does not cross -/
theorem matchLoop_uncrossed {level : Level} (he : levels.entries = (p, level) :: es)
    (hp : order.crosses p = false) :
    matchLoop order levels live remaining fills = some (levels, live, remaining, fills) := by
  rw [matchLoop]
  split
  · split
    · rfl
    · rename_i hb
      rw [OrdMap.begin?, he] at hb
      cases hb
      rw [if_pos hp]
  · rfl

theorem matchLoop_stuck (hr : remaining > 0) (he : levels.entries = (p, ⟨[]⟩) :: es)
    (hp : order.crosses p = true) : matchLoop order levels live remaining fills = none := by
  rw [matchLoop, dif_pos hr]
  split
  · rename_i hb
    rw [OrdMap.begin?, he] at hb
    cases hb
  · rename_i hb
    rw [OrdMap.begin?, he] at hb
    cases hb
    rw [if_neg (by rw [hp]; exact Bool.noConfusion)]

theorem matchLoop_trade (hr : remaining > 0) {a : Order} {rest : List Order}
    (he : levels.entries = (p, ⟨a :: rest⟩) :: es) (hp : order.crosses p = true) :
    matchLoop order levels live remaining fills =
      matchLoop order
        (levels.alterBegin fun _ => Level.trade a rest (min remaining a.quantity))
        (if a.quantity - min remaining a.quantity = 0 then live.erase a.id else live)
        (remaining - min remaining a.quantity)
        (fills ++ [order.fill a (min remaining a.quantity)]) := by
  rw [matchLoop, dif_pos hr]
  split
  · rename_i hb
    rw [OrdMap.begin?, he] at hb
    cases hb
  · rename_i hb
    rw [OrdMap.begin?, he] at hb
    cases hb
    rw [if_neg (by rw [hp]; exact Bool.noConfusion)]

end

/-- no order crosses -/
theorem matchLoop_stop (hf : Filed symbol levels)
    (hx : ∀ o ∈ Levels.orders levels, order.crosses o.priceTicks = false) :
    matchLoop order levels live remaining fills = some (levels, live, remaining, fills) := by
  cases ho : Levels.orders levels with
  | nil => exact matchLoop_nil order live remaining fills (hf.of_nil ho)
  | cons a l =>
    obtain ⟨rest, es, he, _⟩ := hf.front ho
    exact matchLoop_uncrossed order live remaining fills he
      (hx a (by rw [ho]; exact List.mem_cons_self ..))

/-- the loop only appends to the fills -/
theorem matchLoop_append (pre : List Fill) :
    matchLoop order levels live remaining (pre ++ fills)
      = (matchLoop order levels live remaining fills).map fun x =>
          (x.1, x.2.1, x.2.2.1, pre ++ x.2.2.2) := by
  fun_induction matchLoop order levels live remaining fills with
  | case1 levels live remaining fills hr hb =>
    rw [matchLoop_nil _ _ _ _ (List.head?_eq_none_iff.mp hb)]
    rfl
  | case2 levels live remaining fills hr p level hb hx =>
    obtain ⟨es, he⟩ := List.head?_eq_some_iff.mp hb
    rw [matchLoop_uncrossed _ _ _ _ he hx]
    rfl
  | case3 levels live remaining fills hr p level hb hx hnil =>
    obtain ⟨es, he⟩ := List.head?_eq_some_iff.mp hb
    obtain ⟨orders⟩ := level
    dsimp only at hnil
    subst hnil
    rw [matchLoop_stuck _ _ _ _ hr he (by simpa using hx)]
    rfl
  | case4 levels live remaining fills hr p level hb hx maker rest hcons traded ih =>
    obtain ⟨es, he⟩ := List.head?_eq_some_iff.mp hb
    obtain ⟨orders⟩ := level
    dsimp only at hcons
    subst hcons
    rw [matchLoop_trade _ _ _ _ hr he (by simpa using hx), List.append_assoc]
    exact ih
  | case5 levels live remaining fills hr =>
    rw [matchLoop, dif_neg hr]
    rfl

/-! ## a trade and the level -/

variable {a : Order} {rest : List Order} {es : List (Int64 × Level)}
    (he : levels.entries = (a.priceTicks, ⟨a :: rest⟩) :: es)
include he

/-- the maker is exhausted -/
theorem trade_all (hf : Filed symbol levels) :
    Filed symbol (levels.alterBegin fun _ => Level.trade a rest a.quantity) ∧
      Levels.orders (levels.alterBegin fun _ => Level.trade a rest a.quantity)
        = rest ++ es.flatMap fun e => e.2.orders := by
  have hent : (levels.alterBegin fun _ => Level.trade a rest a.quantity).entries
      = if rest = [] then es else (a.priceTicks, ⟨rest⟩) :: es := by
    show OrdMap.alterHead _ levels.entries = _
    rw [he, OrdMap.alterHead, Level.trade, if_pos (UInt64.sub_self ..)]
    split_ifs <;> rfl
  have hes : ∀ e ∈ es, e.2.orders ≠ [] ∧ ∀ o ∈ e.2.orders, o.Rests symbol s e.1 :=
    fun e h => hf e (by rw [he]; exact List.mem_cons_of_mem _ h)
  unfold Filed Levels.orders
  rw [hent]
  split_ifs with hrest
  · subst hrest
    exact ⟨hes, rfl⟩
  · refine ⟨?_, by rw [List.flatMap_cons]⟩
    intro e h
    rcases List.mem_cons.mp h with rfl | h
    · have hold := (hf (a.priceTicks, ⟨a :: rest⟩) (by rw [he]; exact List.mem_cons_self ..)).2
      exact ⟨hrest, fun o ho => hold o (List.mem_cons_of_mem _ ho)⟩
    · exact hes e h

/-- the maker keeps something -/
theorem trade_part (hf : Filed symbol levels) {n : UInt64} (hn : n < a.quantity) :
    Filed symbol (levels.alterBegin fun _ => Level.trade a rest n) ∧
      Levels.orders (levels.alterBegin fun _ => Level.trade a rest n)
        = a.reduce n.toNat :: (rest ++ es.flatMap fun e => e.2.orders) := by
  have hlt := UInt64.lt_iff_toNat_lt.mp hn
  have hsub : (a.quantity - n).toNat = a.quantity.toNat - n.toNat :=
    UInt64.toNat_sub_of_le _ _ (UInt64.le_iff_toNat_le.mpr hlt.le)
  have hne : a.quantity - n ≠ 0 := by
    intro h
    rw [h] at hsub
    have : (0 : UInt64).toNat = 0 := rfl
    omega
  have hred : a.reduce n.toNat = { a with quantity := a.quantity - n } := by
    rw [Order.reduce, UInt64.ofNat_toNat]
  have hent : (levels.alterBegin fun _ => Level.trade a rest n).entries
      = (a.priceTicks, ⟨a.reduce n.toNat :: rest⟩) :: es := by
    show OrdMap.alterHead _ levels.entries = _
    rw [he, OrdMap.alterHead, Level.trade, if_neg hne, hred]
  unfold Filed Levels.orders
  rw [hent]
  refine ⟨?_, by rw [List.flatMap_cons]; rfl⟩
  intro e h
  rcases List.mem_cons.mp h with rfl | h
  · have hold := (hf _ (by rw [he]; exact List.mem_cons_self ..)).2
    refine ⟨List.cons_ne_nil _ _, ?_⟩
    intro o ho
    rcases List.mem_cons.mp ho with rfl | ho
    · have ha := hold a (List.mem_cons_self ..)
      refine ⟨rfl, ha.price_pos, ha.side, ha.symbol, ha.id, ?_⟩
      rw [hred]
      exact UInt64.lt_iff_toNat_lt.mpr (by
        show 0 < (a.quantity - n).toNat
        omega)
    · exact hold o (List.mem_cons_of_mem _ ho)
  · exact hf e (by rw [he]; exact List.mem_cons_of_mem _ h)

end

/-! ## the whole loop -/

/-- **the matching loop**: greedy consumption of the orders `X` that cross -/
theorem matchLoop_spec {s : Side} {symbol : Bytes} (order : Order) (X Y : List Order)
    (levels : Levels s) (live : Live) (remaining : UInt64) (fills : List Fill)
    (hf : Filed symbol levels) (ho : Levels.orders levels = X ++ Y)
    (hX : ∀ o ∈ X, order.crosses o.priceTicks = true)
    (hY : ∀ o ∈ Y, order.crosses o.priceTicks = false) :
    ∃ levels' remaining', matchLoop order levels live remaining fills
        = some (levels', (gone Order.qty remaining.toNat X).foldl (fun l o => l.erase o.id) live,
            remaining', fills ++ order.fills (taken Order.qty remaining.toNat X)) ∧
      remaining'.toNat = remaining.toNat - total Order.qty X ∧ Filed symbol levels' ∧
      Levels.orders levels' = left Order.qty Order.reduce remaining.toNat X ++ Y := by
  induction X generalizing levels live remaining fills with
  | nil =>
    refine ⟨levels, remaining, ?_, rfl, hf, ho⟩
    rw [matchLoop_stop order live remaining fills hf (by rw [ho]; exact hY)]
    simp [gone, taken, Order.fills]
  | cons a X ih =>
    by_cases hz : remaining = 0
    · subst hz
      refine ⟨levels, 0, ?_, by simp, hf, ?_⟩
      · rw [matchLoop_zero, show (0 : UInt64).toNat = 0 from rfl, gone_zero, taken_zero]
        simp [Order.fills]
      · rw [show (0 : UInt64).toNat = 0 from rfl, left_zero]
        exact ho
    · have hpos : remaining > 0 := UInt64.pos_iff_ne_zero.mpr hz
      have hne : remaining.toNat ≠ 0 := fun h => hz (UInt64.toNat.inj h)
      rw [List.cons_append] at ho
      obtain ⟨rest, es, he, hl⟩ := hf.front ho
      rw [matchLoop_trade order live remaining fills hpos he (hX a (List.mem_cons_self ..))]
      by_cases hq : a.qty ≤ remaining.toNat
      · -- the maker is exhausted and the loop goes on
        have hm : min remaining a.quantity = a.quantity :=
          UInt64.toNat.inj (by rw [toNat_min]; exact Nat.min_eq_right hq)
        have hsub : (remaining - a.quantity).toNat = remaining.toNat - a.qty :=
          UInt64.toNat_sub_of_le _ _ (UInt64.le_iff_toNat_le.mpr hq)
        rw [hm, if_pos (UInt64.sub_self ..)]
        obtain ⟨hf', ho'⟩ := trade_all he hf
        obtain ⟨levels', remaining', e, h1, h2, h3⟩ := ih _ (live.erase a.id)
          (remaining - a.quantity) (fills ++ [order.fill a a.quantity]) hf'
          (by rw [ho', ← hl]) (fun o h => hX o (List.mem_cons_of_mem _ h))
        rw [hsub] at e h1 h3
        refine ⟨levels', remaining', ?_, by rw [h1, total_cons]; omega, h2, ?_⟩
        · rw [e, gone_all _ _ hne hq, taken_all _ _ hne hq, List.foldl_cons, List.append_assoc]
          rw [Order.fills, Order.fills, List.map_cons]
          dsimp only
          rw [show UInt64.ofNat a.qty = a.quantity from UInt64.ofNat_toNat]
          rfl
        · rw [h3, left_all _ _ _ hne hq]
      · -- the maker keeps something, and the demand is met
        have hlt : remaining < a.quantity := UInt64.lt_iff_toNat_lt.mpr (by
          have : ¬ a.quantity.toNat ≤ remaining.toNat := hq
          omega)
        have hm : min remaining a.quantity = remaining :=
          UInt64.toNat.inj (by rw [toNat_min]; exact Nat.min_eq_left (UInt64.lt_iff_toNat_lt.mp hlt).le)
        have hnz : a.quantity - remaining ≠ 0 := by
          intro h
          have h' := toNat_sub_min_right remaining a.quantity
          rw [hm, h] at h'
          have : (0 : UInt64).toNat = 0 := rfl
          have := UInt64.lt_iff_toNat_lt.mp hlt
          omega
        obtain ⟨hf', ho'⟩ := trade_part he hf hlt
        rw [hm, if_neg hnz, UInt64.sub_self, matchLoop_zero]
        refine ⟨_, 0, ?_, ?_, hf', ?_⟩
        · rw [gone_part _ _ hne hq, taken_part _ _ hne hq]
          simp [Order.fills]
        · rw [total_cons]
          have : (0 : UInt64).toNat = 0 := rfl
          omega
        · rw [ho', left_part _ _ _ hne hq, ← hl, List.cons_append]

end Matching
