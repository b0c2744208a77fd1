import SystemsCourse.Matching.Priority
import SystemsCourse.Matching.Relabel

/-!
# Buy and sell are mirror images

`mirror C` swaps the two sides and replaces each price `p` by `C - p`.  It reverses the order of
prices, so the comparator of one side becomes that of the other, and a mirrored call on a mirrored
book does the mirrored thing (`mirror_image`).
-/

set_option linter.unusedVariables false

namespace Matching
open Wire

/-- `p` and `C - p` are positive prices; the last part is idle if `C ≤ 2^63` -/
def Between (C : ℤ) (p : Int64) : Prop := 0 < p.toInt ∧ p.toInt < C ∧ C - p.toInt < 2^63

def mirrorPrice (C : ℤ) (p : Int64) : Int64 := Int64.ofInt (C - p.toInt)

def Order.mirror (C : ℤ) (o : Order) : Order :=
  { o with side := o.side.opposite, priceTicks := mirrorPrice C o.priceTicks }

def Fill.mirror (C : ℤ) (f : Fill) : Fill :=
  { f with takerSide := f.takerSide.opposite, priceTicks := mirrorPrice C f.priceTicks }

theorem between_iff {C : ℤ} (hC : C ≤ 2^63) (p : Int64) :
    Between C p ↔ 0 < p.toInt ∧ p.toInt < C := by
  unfold Between
  omega

theorem toInt_mirrorPrice {C : ℤ} {p : Int64} (h : Between C p) :
    (mirrorPrice C p).toInt = C - p.toInt := by
  obtain ⟨h1, h2, h3⟩ := h
  exact Int64.toInt_ofInt_of_le (by omega) (by omega)

theorem mirrorPrice_between {C : ℤ} {p : Int64} (h : Between C p) : Between C (mirrorPrice C p) := by
  have e := toInt_mirrorPrice h
  have := p.toInt_lt
  obtain ⟨h1, h2, h3⟩ := h
  unfold Between
  omega

theorem mirrorPrice_lt {C : ℤ} {a b : Int64} (ha : Between C a) (hb : Between C b) :
    mirrorPrice C a < mirrorPrice C b ↔ b < a := by
  rw [Int64.lt_iff_toInt_lt, Int64.lt_iff_toInt_lt, toInt_mirrorPrice ha, toInt_mirrorPrice hb]
  omega

def mirror (C : ℤ) : Relabel := ⟨Side.opposite, mirrorPrice C, id⟩

theorem mirror_order (C : ℤ) (o : Order) : (mirror C).order o = o.mirror C := rfl

theorem mirror_faithful (C : ℤ) : (mirror C).Faithful (Between C) where
  opposite s := rfl
  better s a b ha hb := by
    cases s with
    | buy => exact mirrorPrice_lt ha hb
    | sell => exact mirrorPrice_lt hb ha
  nonpos p hp := by
    have h := mirrorPrice_between hp
    have h0 : (0 : Int64).toInt = 0 := rfl
    show mirrorPrice C p ≤ 0 ↔ p ≤ 0
    rw [Int64.le_iff_toInt_le, Int64.le_iff_toInt_le, h0]
    exact iff_of_false (not_le.mpr h.1) (not_le.mpr hp.1)

/-! ## the mirrored book -/

def Levels.mirror (C : ℤ) {s : Side} (levels : Levels s)
    (h : ∀ e ∈ levels.entries, Between C e.1) : Levels s.opposite where
  entries := levels.entries.map (Matching.mirror C).entry
  sorted := by
    rw [List.pairwise_map]
    refine levels.sorted.imp_of_mem ?_
    intro e e' he he' hlt
    exact ((mirror_faithful C).better s _ _ (h e he) (h e' he')).mpr hlt

def Live.mirror (live : Live) : Live where
  entries := live.entries.map fun e => ⟨e.1, e.2.opposite⟩
  nodupKeys := by
    have hk : (live.entries.map fun e => (⟨e.1, e.2.opposite⟩ : Sigma fun _ : UInt64 => Side)).keys
        = live.entries.keys := Multiset.map_map ..
    rw [← Multiset.nodup_keys, hk]
    exact live.nodupKeys.nodup_keys

theorem Live.lookup_mirror (live : Live) (id : UInt64) :
    (Live.mirror live).lookup id = (live.lookup id).map Side.opposite := by
  induction live using Finmap.induction_on with
  | H a => exact List.dlookup_map₂ (l := a.entries) (f := fun _ => Side.opposite) id

namespace OrderBook

/-- the prices of the book lie between 0 and `C` -/
def Between (book : OrderBook) (C : ℤ) : Prop :=
  ∀ s, ∀ e ∈ (book.levels s).entries, Matching.Between C e.1

def mirror (C : ℤ) (book : OrderBook) (h : book.Between C) : OrderBook where
  symbol := book.symbol
  bids := Levels.mirror C book.asks (h .sell)
  asks := Levels.mirror C book.bids (h .buy)
  live := Live.mirror book.live

theorem books_mirror {C : ℤ} {book : OrderBook} (h : book.Between C) :
    (Matching.mirror C).Books (Matching.Between C) book (book.mirror C h) where
  symbol := rfl
  levels s := by cases s <;> rfl
  prices := h
  live := Live.lookup_mirror book.live

theorem eq_mirror {C : ℤ} {book book' : OrderBook}
    (h : (Matching.mirror C).Books (Matching.Between C) book book') (hb : book.Between C) :
    book' = book.mirror C hb := by
  obtain ⟨symbol, ⟨bids, hbids⟩, ⟨asks, hasks⟩, live⟩ := book'
  obtain ⟨h1, h2, h3, h4⟩ := h
  have hb : bids = _ := h2 .sell
  have ha : asks = _ := h2 .buy
  have hl : live = Live.mirror book.live := by
    refine Finmap.ext_lookup fun id => ?_
    rw [Live.lookup_mirror]
    exact h4 id
  dsimp only at h1
  subst h1 hb ha hl
  rfl

end OrderBook

/-- **Buy and sell are mirror images.**  A call on the mirrored book has the same answer, the
mirrored fills and the mirrored book. -/
theorem mirror_image (C : ℤ) (symbol : Bytes) (ops : List Op) (book : OrderBook)
    (hrun : (OrderBook.new symbol).run ops = some book) (hb : book.Between C) :
    (∀ order, Between C order.priceTicks → ∀ fills fills', ∃ ack new book',
      ∃ hb' : book'.Between C, book.submit order fills = some (ack, fills ++ new, book') ∧
        (book.mirror C hb).submit (order.mirror C) fills'
          = some (ack, fills' ++ new.map (Fill.mirror C), book'.mirror C hb')) ∧
    (∀ id, ∃ hb' : (book.cancel id).2.Between C,
      (book.mirror C hb).cancel id
        = ((book.cancel id).1, (book.cancel id).2.mirror C hb')) := by
  have h := OrderBook.books_mirror hb
  constructor
  · intro order ho fills fills'
    obtain ⟨x, hx⟩ : ∃ x, book.submit order [] = some x := by
      by_cases hv : book.Accepts order
      · obtain ⟨_, _, e, _⟩ :=
          OrderBook.submit_accepted (OrderBook.inv_of_run hrun) order [] hv
        exact ⟨_, e⟩
      · obtain ⟨_, _, e⟩ := OrderBook.submit_rejected book order [] hv
        exact ⟨_, e⟩
    have hrel := Relabel.submit_relabel h (mirror_faithful C) order ho []
    rw [hx, mirror_order] at hrel
    cases hy : (book.mirror C hb).submit (order.mirror C) [] with
    | none =>
      rw [List.map_nil, hy] at hrel
      cases hrel
    | some y =>
      rw [List.map_nil, hy] at hrel
      obtain ⟨ack, new, book'⟩ := x
      obtain ⟨ack', new', book''⟩ := y
      cases hrel with
      | some hr =>
        dsimp only at hr
        obtain ⟨rfl, rfl, hbooks⟩ := hr
        have hb' : book'.Between C := hbooks.prices
        obtain rfl := OrderBook.eq_mirror hbooks hb'
        refine ⟨ack', new, book', hb', ?_, ?_⟩
        · have happ := OrderBook.submit_append book order fills []
          rw [List.append_nil, hx] at happ
          exact happ
        · have happ := OrderBook.submit_append (book.mirror C hb) (order.mirror C) fills' []
          rw [List.append_nil, hy] at happ
          exact happ
  · intro id
    obtain ⟨h1, h2⟩ := Relabel.cancel_relabel h (mirror_faithful C) id
    have hb' : (book.cancel id).2.Between C := h2.prices
    exact ⟨hb', Prod.ext h1 (OrderBook.eq_mirror h2 hb')⟩

/-- the two asks of a book with prices below 20 become bids, and a bid that trades with both an
ask -/
theorem mirror_image_bid :
    ∃ book, ∃ hb : book.Between 20,
      (OrderBook.new [65]).run [.submit askTen, .submit askNine] = some book ∧
      ((book.mirror 20 hb).submit (bidTen.mirror 20) []).map (fun r => r.2.1)
        = some [⟨3, 2, .sell, 11, 5, 0⟩, ⟨3, 1, .sell, 10, 2, 0⟩] := by
  obtain ⟨book, hrun, h⟩ := Option.bind_eq_some_iff.mp bidTen_submit
  obtain ⟨⟨ack, fills', book'⟩, hs, e⟩ := Option.map_eq_some_iff.mp h
  cases e
  have hb : book.Between 20 := by
    have hk : ((OrderBook.new [65]).run [.submit askTen, .submit askNine]).map
        (fun b => (b.bids.entries.map Prod.fst, b.asks.entries.map Prod.fst))
          = some ([], [9, 10]) := by
      decide +kernel
    rw [hrun] at hk
    obtain ⟨h1, h2⟩ := Prod.mk.inj (Option.some.inj hk)
    intro s e he
    have hm := List.mem_map_of_mem (f := Prod.fst) he
    rw [between_iff (by decide)]
    cases s with
    | buy =>
      rw [show (book.levels .buy).entries.map Prod.fst = [] from h1] at hm
      cases hm
    | sell =>
      rw [show (book.levels .sell).entries.map Prod.fst = [9, 10] from h2] at hm
      rcases List.mem_pair.mp hm with h | h
      · rw [h]
        decide
      · rw [h]
        decide
  obtain ⟨ack, new, book₁, hb', e1, e2⟩ :=
    (mirror_image 20 [65] _ book hrun hb).1 bidTen ((between_iff (by decide) _).mpr (by decide)) [] []
  rw [hs] at e1
  cases e1
  exact ⟨book, hb, hrun, by rw [e2]; rfl⟩

end Matching
