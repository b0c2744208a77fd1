import SystemsCourse.Matching.Invariant

/-!
# Relabelled books

A `Relabel` renames sides, prices and sequence numbers.  If it keeps the order of the prices of a
book (`Faithful`), then `submit` and `cancel` on the renamed book do the renamed thing
(`submit_relabel`, `cancel_relabel`): the loop reads prices only through the comparison with the
limit, and sequence numbers not at all.
-/

set_option linter.unusedVariables false

namespace Matching
open Wire

structure Relabel where
  side : Side → Side
  price : Int64 → Int64
  sequence : UInt64 → UInt64

namespace Relabel

def order (r : Relabel) (o : Order) : Order :=
  { o with side := r.side o.side, priceTicks := r.price o.priceTicks,
           sequence := r.sequence o.sequence }

def fill (r : Relabel) (f : Fill) : Fill :=
  { f with takerSide := r.side f.takerSide, priceTicks := r.price f.priceTicks,
           sequence := r.sequence f.sequence }

def level (r : Relabel) (l : Level) : Level := ⟨l.orders.map r.order⟩

def entry (r : Relabel) : Int64 × Level → Int64 × Level := Prod.map r.price r.level

/-- the comparisons of `submit` between prices of `P` come out alike -/
structure Faithful (r : Relabel) (P : Int64 → Prop) : Prop where
  opposite : ∀ s, r.side s.opposite = (r.side s).opposite
  better : ∀ s a b, P a → P b → ((r.side s).better (r.price a) (r.price b) ↔ s.better a b)
  nonpos : ∀ p, P p → (r.price p ≤ 0 ↔ p ≤ 0)

def Lives (r : Relabel) (live live' : Live) : Prop :=
  ∀ id, live'.lookup id = (live.lookup id).map r.side

structure Books (r : Relabel) (P : Int64 → Prop) (book book' : OrderBook) : Prop where
  symbol : book'.symbol = book.symbol
  levels : ∀ s, (book'.levels (r.side s)).entries = (book.levels s).entries.map r.entry
  prices : ∀ s, ∀ e ∈ (book.levels s).entries, P e.1
  live : r.Lives book.live book'.live

variable {r : Relabel} {P : Int64 → Prop}

theorem crosses_order (hr : r.Faithful P) {o : Order} (ho : P o.priceTicks) {p : Int64} (hp : P p) :
    (r.order o).crosses (r.price p) = o.crosses p := by
  rw [Bool.eq_iff_iff, Order.crosses_iff, Order.crosses_iff]
  show ¬ (r.side o.side).opposite.better (r.price o.priceTicks) (r.price p) ↔ _
  rw [← hr.opposite, hr.better _ _ _ ho hp]

theorem trade_order (maker : Order) (rest : List Order) (n : UInt64) :
    Level.trade (r.order maker) (rest.map r.order) n = (Level.trade maker rest n).map r.level := by
  unfold Level.trade
  rw [show (r.order maker).quantity = maker.quantity from rfl]
  split_ifs with h1 h2 h3 h4
  · rfl
  · exact absurd (List.map_eq_nil_iff.mp h2) h3
  · exact absurd (List.map_eq_nil_iff.mpr h4) h2
  · rfl
  · rfl

theorem removeOrder_level (id : UInt64) (l : Level) :
    OrderBook.removeOrder id (r.level l)
      = (OrderBook.removeOrder id l).map (Option.map r.level) := by
  have hid : ((fun o : Order => o.id == id) ∘ r.order) = fun o => o.id == id := rfl
  unfold OrderBook.removeOrder level
  dsimp only
  rw [List.any_map, List.eraseP_map, hid]
  split_ifs with h1 h2 h3 h4
  · rfl
  · exact absurd (List.map_eq_nil_iff.mp h2) h3
  · exact absurd (List.map_eq_nil_iff.mpr h4) h2
  · rfl
  · rfl

theorem pushBack_order (o : Order) (l : Option Level) :
    OrderBook.pushBack (r.order o) (l.map r.level) = r.level (OrderBook.pushBack o l) := by
  cases l with
  | none => rfl
  | some l => simp [OrderBook.pushBack, level]

namespace Lives
variable {live live' : Live} (h : r.Lives live live')
include h

theorem erase (id : UInt64) : r.Lives (live.erase id) (live'.erase id) := by
  intro i
  by_cases hi : i = id
  · subst hi
    simp
  · rw [Finmap.lookup_erase_ne hi, Finmap.lookup_erase_ne hi, h]

theorem emplace (id : UInt64) (s : Side) :
    r.Lives (OrderBook.emplace live id s) (OrderBook.emplace live' id (r.side s)) := by
  have hn : live'.lookup id = none ↔ live.lookup id = none := by rw [h, Option.map_eq_none_iff]
  unfold OrderBook.emplace
  simp only [hn]
  split_ifs with hl
  · intro i
    by_cases hi : i = id
    · subst hi
      simp
    · rw [Finmap.lookup_insert_of_ne _ hi, Finmap.lookup_insert_of_ne _ hi, h]
  · exact h

end Lives

/-! ## the loop -/

/-- the results of the two loops -/
structure Matched (r : Relabel) (P : Int64 → Prop) {s s' : Side}
    (x : Levels s × Live × UInt64 × List Fill) (y : Levels s' × Live × UInt64 × List Fill) :
    Prop where
  levels : y.1.entries = x.1.entries.map r.entry
  prices : ∀ e ∈ x.1.entries, P e.1
  live : r.Lives x.2.1 y.2.1
  remaining : y.2.2.1 = x.2.2.1
  fills : y.2.2.2 = x.2.2.2.map r.fill

theorem prices_of_keys {es es' : List (Int64 × Level)} (h : ∀ e ∈ es, P e.1)
    (hk : (es'.map Prod.fst).Sublist (es.map Prod.fst)) : ∀ e ∈ es', P e.1 := by
  intro e he
  obtain ⟨e', he', h1⟩ := List.mem_map.mp (hk.subset (List.mem_map_of_mem he))
  rw [← h1]
  exact h e' he'

theorem matchLoop_relabel (hr : r.Faithful P) {s s' : Side} (order : Order)
    (ho : P order.priceTicks) (levels : Levels s) (levels' : Levels s') (live live' : Live)
    (remaining : UInt64) (fills : List Fill)
    (he : levels'.entries = levels.entries.map r.entry) (hp : ∀ e ∈ levels.entries, P e.1)
    (hl : r.Lives live live') :
    Option.Rel (r.Matched P) (matchLoop order levels live remaining fills)
      (matchLoop (r.order order) levels' live' remaining (fills.map r.fill)) := by
  -- the recursion of the loop on the left
  fun_induction matchLoop order levels live remaining fills generalizing levels' live' with
  | case1 levels live remaining fills hrem hb =>
    have hnil : levels'.entries = [] := by
      rw [he, List.head?_eq_none_iff.mp hb]
      rfl
    rw [matchLoop_nil _ _ _ _ hnil]
    exact .some ⟨he, hp, hl, rfl, rfl⟩
  | case2 levels live remaining fills hrem p lv hb hx =>
    obtain ⟨es, hes⟩ := List.head?_eq_some_iff.mp hb
    rw [hes] at he
    have hpp : P p := hp (p, lv) (by rw [hes]; exact List.mem_cons_self ..)
    rw [matchLoop_uncrossed _ _ _ _ he (by rw [crosses_order hr ho hpp]; exact hx)]
    exact .some ⟨by rw [he, hes], hp, hl, rfl, rfl⟩
  | case3 levels live remaining fills hrem p lv hb hx hnil =>
    obtain ⟨es, hes⟩ := List.head?_eq_some_iff.mp hb
    rw [hes] at he
    have hpp : P p := hp (p, lv) (by rw [hes]; exact List.mem_cons_self ..)
    have hlev : r.level lv = ⟨[]⟩ := by rw [level, hnil]; rfl
    rw [List.map_cons, entry, Prod.map_apply, hlev] at he
    rw [matchLoop_stuck _ _ _ _ hrem he (by simpa [crosses_order hr ho hpp] using hx)]
    exact .none
  | case4 levels live remaining fills hrem p lv hb hx maker rest hcons traded ih =>
    obtain ⟨es, hes⟩ := List.head?_eq_some_iff.mp hb
    have hpp : P p := hp (p, lv) (by rw [hes]; exact List.mem_cons_self ..)
    have hlev : r.level lv = ⟨r.order maker :: rest.map r.order⟩ := by rw [level, hcons]; rfl
    have hes' : levels'.entries
        = (r.price p, ⟨r.order maker :: rest.map r.order⟩) :: es.map r.entry := by
      rw [he, hes, List.map_cons, entry, Prod.map_apply, hlev]
    rw [matchLoop_trade _ _ _ _ hrem hes' (by simpa [crosses_order hr ho hpp] using hx)]
    have hfills : fills.map r.fill ++ [(r.order order).fill (r.order maker) traded]
        = (fills ++ [order.fill maker traded]).map r.fill := by
      rw [List.map_append]
      rfl
    rw [show min remaining (r.order maker).quantity = traded from rfl, hfills]
    refine ih _ _ ?_ ?_ ?_
    · show OrdMap.alterHead _ levels'.entries = (OrdMap.alterHead _ levels.entries).map r.entry
      rw [he]
      exact OrdMap.alterHead_map r.price r.level (fun _ => trade_order maker rest traded) _
    · exact prices_of_keys hp (OrdMap.keys_alterHead _)
    · rw [show (r.order maker).quantity = maker.quantity from rfl]
      split_ifs
      · exact hl.erase maker.id
      · exact hl
  | case5 levels live remaining fills hrem =>
    have hz : remaining = 0 := by
      by_contra h
      exact hrem (UInt64.pos_iff_ne_zero.mpr h)
    subst hz
    rw [matchLoop_zero]
    exact .some ⟨he, hp, hl, rfl, rfl⟩

/-! ## the two calls -/

section
variable {book book' : OrderBook} (h : r.Books P book book') (hr : r.Faithful P)
include h hr

/-- one side is replaced in both books -/
theorem Books.setLevels (s : Side) {s' : Side} (hs : s' = r.side s) {l : Levels s} {l' : Levels s'}
    {live live' : Live} (he : l'.entries = l.entries.map r.entry) (hp : ∀ e ∈ l.entries, P e.1)
    (hl : r.Lives live live') :
    r.Books P { book.setLevels s l with live := live }
      { book'.setLevels s' l' with live := live' } := by
  subst hs
  refine ⟨?_, ?_, ?_, hl⟩
  · rw [OrderBook.symbol_setLevels, OrderBook.symbol_setLevels]
    exact h.symbol
  · intro t
    rcases s.eq_or_opposite t with rfl | rfl
    · rw [OrderBook.levels_setLevels, OrderBook.levels_setLevels]
      exact he
    · rw [hr.opposite, OrderBook.levels_setLevels_opposite, OrderBook.levels_setLevels_opposite,
        ← hr.opposite]
      exact h.levels _
  · intro t
    rcases s.eq_or_opposite t with rfl | rfl
    · rw [OrderBook.levels_setLevels]
      exact hp
    · rw [OrderBook.levels_setLevels_opposite]
      exact h.prices _

theorem rest_relabel (order : Order) (ho : P order.priceTicks) (remaining : UInt64) :
    r.Books P (book.rest order remaining) (book'.rest (r.order order) remaining) := by
  unfold OrderBook.rest
  rw [show (r.order order).tif = order.tif from rfl]
  split_ifs with hc
  · refine h.setLevels hr order.side rfl ?_ ?_ (h.live.emplace order.id order.side)
    · show OrdMap.upsertList (r.side order.side).better _ _ (book'.levels (r.side order.side)).entries
        = (OrdMap.upsertList order.side.better _ _ (book.levels order.side).entries).map r.entry
      rw [h.levels]
      refine OrdMap.upsertList_map r.price r.level order.side.better (r.side order.side).better
        (fun l => pushBack_order { order with quantity := remaining } l) ?_
      intro e he
      have hpe := h.prices _ e he
      exact ⟨hr.better _ _ _ ho hpe, hr.better _ _ _ hpe ho⟩
    · intro e he
      rcases OrdMap.keys_upsertList order.side.better _ _ e.1 (List.mem_map_of_mem he) with hk | hk
      · rw [hk]
        exact ho
      · obtain ⟨e', he', hk⟩ := List.mem_map.mp hk
        rw [← hk]
        exact h.prices _ e' he'
  · exact h

/-- **`submit` of the renamed order on the renamed book** -/
theorem submit_relabel (order : Order) (ho : P order.priceTicks) (fills : List Fill) :
    Option.Rel (fun x y => y.1 = x.1 ∧ y.2.1 = x.2.1.map r.fill ∧ r.Books P x.2.2 y.2.2)
      (book.submit order fills) (book'.submit (r.order order) (fills.map r.fill)) := by
  unfold OrderBook.submit
  rw [show (r.order order).symbol = order.symbol from rfl, h.symbol,
    show (r.order order).id = order.id from rfl,
    show (r.order order).quantity = order.quantity from rfl,
    show (r.order order).priceTicks = r.price order.priceTicks from rfl, h.live order.id,
    Option.isSome_map]
  simp only [hr.nonpos _ ho]
  split_ifs with h1 h2 h3
  · exact .some ⟨rfl, rfl, h⟩
  · exact .some ⟨rfl, rfl, h⟩
  · exact .some ⟨rfl, rfl, h⟩
  · have hopp : (r.order order).side.opposite = r.side order.side.opposite := (hr.opposite _).symm
    have hm := matchLoop_relabel hr order ho (book.levels order.side.opposite)
      (book'.levels (r.order order).side.opposite) book.live book'.live order.quantity fills
      (by rw [hopp]; exact h.levels _) (h.prices _) h.live
    generalize matchLoop order (book.levels order.side.opposite) book.live order.quantity fills = x,
      matchLoop (r.order order) (book'.levels (r.order order).side.opposite) book'.live
        order.quantity (fills.map r.fill) = y at hm ⊢
    cases hm with
    | none => exact .none
    | @some x y hm =>
      obtain ⟨levels, live, remaining, fs⟩ := x
      obtain ⟨levels', live', remaining', fs'⟩ := y
      obtain ⟨he, hp, hl, hrem, hf⟩ := hm
      dsimp only at he hp hl hrem hf
      subst hrem
      refine .some ⟨rfl, hf, ?_⟩
      exact rest_relabel (h.setLevels hr _ hopp he hp hl) hr order ho remaining'

/-- **`cancel` on the renamed book** -/
theorem cancel_relabel (id : UInt64) :
    (book'.cancel id).1 = (book.cancel id).1 ∧
      r.Books P (book.cancel id).2 (book'.cancel id).2 := by
  unfold OrderBook.cancel
  rw [h.live id]
  cases book.live.lookup id with
  | none => exact ⟨rfl, h⟩
  | some s =>
    dsimp only [Option.map_some]
    have hlist := OrdMap.alterList_map r.price r.level (removeOrder_level id)
      (book.levels s).entries
    rw [← entry, ← h.levels] at hlist
    have e := OrdMap.alterFirst_entries (book.levels s) (OrderBook.removeOrder id)
    have e' := OrdMap.alterFirst_entries (book'.levels (r.side s)) (OrderBook.removeOrder id)
    rw [hlist, ← e] at e'
    cases hx : (book.levels s).alterFirst (OrderBook.removeOrder id) with
    | none =>
      rw [hx] at e'
      rw [Option.map_eq_none_iff.mp e']
      exact ⟨rfl, h⟩
    | some l =>
      rw [hx] at e'
      obtain ⟨l', hy, e'⟩ := Option.map_eq_some_iff.mp e'
      rw [hy]
      refine ⟨rfl, h.setLevels hr s rfl e' ?_ (h.live.erase id)⟩
      exact prices_of_keys (h.prices s) (OrdMap.keys_alterList (OrdMap.alterFirst_some hx))

end

end Relabel

end Matching
