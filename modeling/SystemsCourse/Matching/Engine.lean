import SystemsCourse.Lib.Family
import SystemsCourse.Matching.Priority
import SystemsCourse.Matching.Relabel

/-!
# The engine

Model of `capstone/matching/solution-reference/src/engine.cpp`: a book for each symbol, created when
it is first asked for, and one sequence counter for all of them.

Seen through `bookOf`, the engine is a family of independent books (`run_family`) whose inputs are
the calls with the sequence numbers that the engine stamps on them.  So what concerns a symbol is a
run of its book alone (`symbol_isolation`).
-/

set_option linter.unusedVariables false

namespace Matching
open Wire Family Greedy

structure MatchingEngine where
  books : Finmap fun _ : Bytes => OrderBook
  nextSequence : UInt64

namespace MatchingEngine

/-- the constructor, which ignores its argument -/
def new : MatchingEngine := ⟨∅, 1⟩

/-- the book of the symbol, and the engine that has it -/
def book (engine : MatchingEngine) (symbol : Bytes) : OrderBook × MatchingEngine :=
  match engine.books.lookup symbol with
  | some book => (book, engine)
  | none => (OrderBook.new symbol,
      { engine with books := engine.books.insert symbol (OrderBook.new symbol) })

def prepareSymbol (engine : MatchingEngine) (symbol : Bytes) : MatchingEngine :=
  (engine.book symbol).2

/-- a change through the reference that `book` returned -/
def setBook (engine : MatchingEngine) (symbol : Bytes) (book : OrderBook) : MatchingEngine :=
  { engine with books := engine.books.insert symbol book }

/-- the order that `submit` hands on when `next_sequence_` is `next` -/
def stamp (next : UInt64) (order : Order) : Order :=
  if order.sequence = 0 then { order with sequence := next } else order

/-- `next_sequence_` after a `submit` -/
def nextAfter (next : UInt64) (order : Order) : UInt64 :=
  if order.sequence = 0 then next + 1 else next

def submit (engine : MatchingEngine) (order : Order) (fills : List Fill) :
    Option (Ack × List Fill × MatchingEngine) :=
  let stamped := stamp engine.nextSequence order
  let engine₁ := { engine with nextSequence := nextAfter engine.nextSequence order }
  let (book, engine₂) := engine₁.book stamped.symbol
  match book.submit stamped fills with
  | none => none
  | some (ack, fills, book') => some (ack, fills, engine₂.setBook stamped.symbol book')

def cancel (engine : MatchingEngine) (symbol : Bytes) (id : UInt64) : Bool × MatchingEngine :=
  let (book, engine₁) := engine.book symbol
  let (found, book') := book.cancel id
  (found, engine₁.setBook symbol book')

/-- an engine whose setup prepared the symbols -/
def prepared (symbols : List Bytes) : MatchingEngine := symbols.foldl prepareSymbol new

end MatchingEngine

/-! ## calls -/

inductive Call where
  | submit (order : Order)
  | cancel (symbol : Bytes) (id : UInt64)

/-- what a call returns and appends to the fills -/
inductive Outcome where
  | ack (ack : Ack) (fills : List Fill)
  | cancelled (found : Bool)

def OrderBook.perform (book : OrderBook) : Op → Option (Outcome × OrderBook)
  | .submit order => (book.submit order []).map fun r => (.ack r.1 r.2.1, r.2.2)
  | .cancel id => some (.cancelled (book.cancel id).1, (book.cancel id).2)

namespace Call

def symbol : Call → Bytes
  | .submit order => order.symbol
  | .cancel symbol _ => symbol

/-- the call of the book, for the value `next` of `next_sequence_` -/
def stamped (next : UInt64) : Call → Bytes × Op
  | .submit order => (order.symbol, .submit (MatchingEngine.stamp next order))
  | .cancel symbol id => (symbol, .cancel id)

/-- `next_sequence_` after the call -/
def next (next : UInt64) : Call → UInt64
  | .submit order => MatchingEngine.nextAfter next order
  | .cancel _ _ => next

end Call

/-- the calls of the books in a run that starts with `next_sequence_ = next` -/
def stamped (next : UInt64) : List Call → List (Bytes × Op)
  | [] => []
  | call :: calls => call.stamped next :: stamped (call.next next) calls

/-- a call of the engine; the answer is filed under the symbol -/
def MatchingEngine.perform (engine : MatchingEngine) :
    Call → Option ((Bytes × Outcome) × MatchingEngine)
  | .submit order =>
    (engine.submit order []).map fun r => ((order.symbol, .ack r.1 r.2.1), r.2.2)
  | .cancel symbol id =>
    some ((symbol, .cancelled (engine.cancel symbol id).1), (engine.cancel symbol id).2)

/-! ## the engine is a family of books -/

namespace MatchingEngine

/-- the book of a symbol, empty as long as nothing has asked for it -/
def bookOf (engine : MatchingEngine) (symbol : Bytes) : OrderBook :=
  (engine.books.lookup symbol).getD (OrderBook.new symbol)

theorem bookOf_setBook (engine : MatchingEngine) (symbol : Bytes) (book : OrderBook) :
    (engine.setBook symbol book).bookOf = Function.update engine.bookOf symbol book := by
  funext s
  unfold bookOf setBook
  by_cases hs : s = symbol
  · subst hs
    simp
  · rw [Function.update_of_ne hs, Finmap.lookup_insert_of_ne _ hs]

theorem book_spec (engine : MatchingEngine) (symbol : Bytes) :
    (engine.book symbol).1 = engine.bookOf symbol ∧
      (engine.book symbol).2.bookOf = engine.bookOf ∧
      (engine.book symbol).2.nextSequence = engine.nextSequence := by
  unfold book
  cases hl : engine.books.lookup symbol with
  | some b => exact ⟨by rw [bookOf, hl]; rfl, rfl, rfl⟩
  | none =>
    have hb : engine.bookOf symbol = OrderBook.new symbol := by rw [bookOf, hl]; rfl
    refine ⟨hb.symm, ?_, rfl⟩
    have := bookOf_setBook engine symbol (OrderBook.new symbol)
    rw [← hb, Function.update_eq_self] at this
    rw [hb] at this
    exact this

theorem bookOf_prepared (symbols : List Bytes) :
    (prepared symbols).bookOf = OrderBook.new ∧ (prepared symbols).nextSequence = 1 := by
  have key : ∀ engine : MatchingEngine, (symbols.foldl prepareSymbol engine).bookOf = engine.bookOf ∧
      (symbols.foldl prepareSymbol engine).nextSequence = engine.nextSequence := by
    induction symbols with
    | nil => exact fun engine => ⟨rfl, rfl⟩
    | cons s symbols ih =>
      intro engine
      obtain ⟨h1, h2⟩ := ih (engine.prepareSymbol s)
      obtain ⟨_, h3, h4⟩ := engine.book_spec s
      exact ⟨h1.trans h3, h2.trans h4⟩
  exact key new

theorem stamp_symbol (next : UInt64) (order : Order) : (stamp next order).symbol = order.symbol := by
  unfold stamp
  split_ifs <;> rfl

/-- `submit` is the `submit` of the symbol's book, for the stamped order -/
theorem submit_book {engine : MatchingEngine} {order : Order} {fills fills' : List Fill} {ack : Ack}
    {book' : OrderBook} (h : (engine.bookOf order.symbol).submit (stamp engine.nextSequence order)
      fills = some (ack, fills', book')) :
    ∃ engine', engine.submit order fills = some (ack, fills', engine') ∧
      engine'.bookOf = Function.update engine.bookOf order.symbol book' ∧
      engine'.nextSequence = nextAfter engine.nextSequence order := by
  obtain ⟨h1, h2, h3⟩ := MatchingEngine.book_spec
    { engine with nextSequence := nextAfter engine.nextSequence order } order.symbol
  unfold submit
  dsimp only
  rw [stamp_symbol, h1]
  rw [show bookOf { engine with nextSequence := nextAfter engine.nextSequence order } order.symbol
    = engine.bookOf order.symbol from rfl, h]
  refine ⟨_, rfl, ?_, h3⟩
  rw [bookOf_setBook, h2]
  rfl

theorem cancel_book (engine : MatchingEngine) (symbol : Bytes) (id : UInt64) :
    (engine.cancel symbol id).1 = ((engine.bookOf symbol).cancel id).1 ∧
      (engine.cancel symbol id).2.bookOf
        = Function.update engine.bookOf symbol ((engine.bookOf symbol).cancel id).2 ∧
      (engine.cancel symbol id).2.nextSequence = engine.nextSequence := by
  obtain ⟨h1, h2, h3⟩ := engine.book_spec symbol
  unfold cancel
  dsimp only
  rw [h1]
  exact ⟨rfl, by rw [bookOf_setBook, h2], h3⟩

/-- a call of the engine is a call of the family -/
theorem perform_family {engine : MatchingEngine} {call : Call} {out : Bytes × Outcome}
    {books : Bytes → OrderBook}
    (h : stepFamily OrderBook.perform engine.bookOf (call.stamped engine.nextSequence)
      = some (out, books)) :
    ∃ engine', engine.perform call = some (out, engine') ∧ engine'.bookOf = books ∧
      engine'.nextSequence = call.next engine.nextSequence := by
  obtain ⟨⟨o, b⟩, hb, e⟩ := Option.map_eq_some_iff.mp h
  cases e
  cases call with
  | submit order =>
    obtain ⟨⟨ack, fills, b'⟩, hs, e⟩ := Option.map_eq_some_iff.mp hb
    cases e
    obtain ⟨engine', he, h1, h2⟩ := submit_book hs
    exact ⟨engine', by rw [perform, he]; rfl, h1, h2⟩
  | cancel symbol id =>
    obtain ⟨h1, h2, h3⟩ := engine.cancel_book symbol id
    cases hb
    refine ⟨(engine.cancel symbol id).2, ?_, h2, h3⟩
    rw [perform, h1]
    rfl

/-- **the engine refines the family of its books** -/
theorem run_family {engine : MatchingEngine} {calls : List Call} {log : List (Bytes × Outcome)}
    {books : Bytes → OrderBook}
    (h : run (stepFamily OrderBook.perform) engine.bookOf (Matching.stamped engine.nextSequence calls)
      = some (log, books)) :
    ∃ engine', run perform engine calls = some (log, engine') ∧ engine'.bookOf = books := by
  induction calls generalizing engine log with
  | nil =>
    cases h
    exact ⟨engine, rfl, rfl⟩
  | cons call calls ih =>
    obtain ⟨out, books₁, log', h1, h2, rfl⟩ := run_cons_eq_some h
    obtain ⟨engine₁, e1, rfl, hn⟩ := perform_family h1
    rw [← hn] at h2
    obtain ⟨engine', e2, hb⟩ := ih h2
    refine ⟨engine', ?_, hb⟩
    rw [run_cons, e1, Option.bind_some, e2]
    rfl

end MatchingEngine

/-- the book of a symbol -/
structure OrderBook.InvFor (symbol : Bytes) (book : OrderBook) : Prop where
  inv : book.Inv
  symbol : book.symbol = symbol

/-- a call of a book has a result -/
theorem OrderBook.perform_total (symbol : Bytes) (book : OrderBook) (op : Op)
    (h : book.InvFor symbol) :
    ∃ o book', book.perform op = some (o, book') ∧ book'.InvFor symbol := by
  obtain ⟨hinv, hsym⟩ := h
  obtain ⟨book', e, hinv', hsym'⟩ := OrderBook.step_inv hinv op
  cases op with
  | submit order =>
    obtain ⟨⟨ack, fills, b⟩, hs, rfl⟩ := Option.map_eq_some_iff.mp e
    exact ⟨.ack ack fills, b, by rw [perform, hs]; rfl, hinv', hsym'.trans hsym⟩
  | cancel id =>
    cases e
    exact ⟨_, _, rfl, hinv', hsym'.trans hsym⟩

theorem MatchingEngine.prepared_books (symbols : List Bytes) (symbol : Bytes) :
    ((prepared symbols).bookOf symbol).InvFor symbol := by
  rw [(bookOf_prepared symbols).1]
  exact ⟨OrderBook.new_inv symbol, rfl⟩

/-- `submit` has a result, and keeps the books -/
theorem MatchingEngine.submit_total {engine : MatchingEngine}
    (h : ∀ symbol, (engine.bookOf symbol).InvFor symbol) (order : Order) (fills : List Fill) :
    ∃ ack fills' engine', engine.submit order fills = some (ack, fills', engine') ∧
      ∀ symbol, (engine'.bookOf symbol).InvFor symbol := by
  obtain ⟨_, book', e, hinv⟩ := OrderBook.perform_total order.symbol (engine.bookOf order.symbol)
    (.submit (stamp engine.nextSequence order)) (h order.symbol)
  obtain ⟨⟨ack, new, b⟩, hs, e⟩ := Option.map_eq_some_iff.mp e
  cases e
  have happ := OrderBook.submit_append (engine.bookOf order.symbol) (stamp engine.nextSequence order)
    fills []
  rw [hs, List.append_nil] at happ
  obtain ⟨engine', he, hb, _⟩ := submit_book happ
  refine ⟨ack, fills ++ new, engine', he, ?_⟩
  intro symbol
  rw [hb]
  by_cases hsym : symbol = order.symbol
  · subst hsym
    rw [Function.update_self]
    exact hinv
  · rw [Function.update_of_ne hsym]
    exact h symbol

/-- a run of the engine, and what it is for each book -/
theorem MatchingEngine.run_books (symbols : List Bytes) (calls : List Call) :
    ∃ log engine, run MatchingEngine.perform (MatchingEngine.prepared symbols) calls
        = some (log, engine) ∧
      (∀ s, (engine.bookOf s).InvFor s) ∧
      ∀ s, run OrderBook.perform (OrderBook.new s) (select s (stamped 1 calls))
        = some (select s log, engine.bookOf s) := by
  obtain ⟨hb, hn⟩ := MatchingEngine.bookOf_prepared symbols
  have hnew := MatchingEngine.prepared_books symbols
  rw [hb] at hnew
  obtain ⟨log, books, e, hinv⟩ := run_total
    (stepFamily_total OrderBook.perform_total) hnew (stamped 1 calls)
  have e' := e
  rw [← hb, ← hn] at e'
  obtain ⟨engine, he, rfl⟩ := MatchingEngine.run_family e'
  exact ⟨log, engine, he, hinv, fun s => runFamily_select e s⟩

theorem MatchingEngine.run_symbols {engine engine' : MatchingEngine} {calls : List Call}
    {log : List (Bytes × Outcome)} (h : run MatchingEngine.perform engine calls = some (log, engine')) :
    log.map Prod.fst = calls.map Call.symbol := by
  induction calls generalizing engine log with
  | nil =>
    cases h
    rfl
  | cons call calls ih =>
    obtain ⟨out, engine₁, log', h1, h2, rfl⟩ := run_cons_eq_some h
    rw [List.map_cons, List.map_cons, ih h2]
    congr 1
    cases call with
    | submit order =>
      obtain ⟨r, _, e⟩ := Option.map_eq_some_iff.mp h1
      cases e
      rfl
    | cancel symbol id =>
      cases h1
      rfl

/-! ## one call -/

theorem OrderBook.submit_reason {book book' : OrderBook} {order : Order} {fills fills' : List Fill}
    {ack : Ack} (hs : order.symbol = book.symbol)
    (h : book.submit order fills = some (ack, fills', book')) :
    ack.reason ≠ ascii "symbol mismatch" := by
  unfold OrderBook.submit at h
  rw [if_neg (not_not.mpr hs)] at h
  split_ifs at h
  · cases h
    exact (by decide : ascii "invalid order" ≠ ascii "symbol mismatch")
  · cases h
    exact (by decide : ascii "duplicate live order id" ≠ ascii "symbol mismatch")
  · split at h
    · cases h
    · cases h
      exact (by decide : ascii "accepted" ≠ ascii "symbol mismatch")

/-- the makers of the fills rest in the book -/
theorem OrderBook.Inv.submit_fills {book : OrderBook} (h : book.Inv) (order : Order)
    (fills : List Fill) :
    ∃ ack new book', book.submit order fills = some (ack, fills ++ new, book') ∧
      ∀ f ∈ new, f.takerId = order.id ∧
        ∃ m ∈ book.orders order.side.opposite, f.makerId = m.id ∧ m.symbol = book.symbol := by
  by_cases hv : book.Accepts order
  · obtain ⟨remaining, book', e, _⟩ := OrderBook.submit_accepted h order fills hv
    refine ⟨_, _, book', e, ?_⟩
    intro f hf
    obtain ⟨x, hx, rfl⟩ := List.mem_map.mp hf
    have hm : x.1 ∈ book.makers order :=
      (taken_initial Order.qty order.qty (book.makers order)).subset (List.mem_map_of_mem hx)
    have ho := (List.mem_filter.mp hm).1
    exact ⟨rfl, x.1, ho, rfl, ((h.filed _).rests ho).symbol⟩
  · obtain ⟨ack, _, e⟩ := OrderBook.submit_rejected book order fills hv
    exact ⟨ack, [], book, by rw [List.append_nil]; exact e, nofun⟩

/-! ## without sequence numbers -/

def unsequenced : Relabel := ⟨id, id, fun _ => 0⟩

theorem unsequenced_faithful : unsequenced.Faithful fun _ => True :=
  ⟨fun _ => rfl, fun _ _ _ _ _ => Iff.rfl, fun _ _ => Iff.rfl⟩

def Op.unsequenced : Op → Op
  | .submit order => .submit { order with sequence := 0 }
  | .cancel id => .cancel id

def Fill.unsequenced (f : Fill) : Fill := { f with sequence := 0 }

def Outcome.unsequenced : Outcome → Outcome
  | .ack a fills => .ack a (fills.map Fill.unsequenced)
  | .cancelled found => .cancelled found

/-- the same orders in the same places, up to their sequence numbers -/
structure OrderBook.Alike (book book' : OrderBook) : Prop where
  symbol : book.symbol = book'.symbol
  levels : ∀ s, (book.levels s).entries.map unsequenced.entry
    = (book'.levels s).entries.map unsequenced.entry
  live : book.live = book'.live

theorem OrderBook.perform_unsequenced (book book' : OrderBook) (op : Op)
    (h : unsequenced.Books (fun _ => True) book book') :
    Option.Rel (fun x y => y.1 = x.1.unsequenced ∧ unsequenced.Books (fun _ => True) x.2 y.2)
      (book.perform op) (book'.perform op.unsequenced) := by
  cases op with
  | submit order =>
    have hrel := Relabel.submit_relabel h unsequenced_faithful order trivial []
    show Option.Rel _ ((book.submit order []).map _) ((book'.submit (unsequenced.order order) []).map _)
    rw [List.map_nil] at hrel
    generalize book.submit order [] = x, book'.submit (unsequenced.order order) [] = y at hrel ⊢
    cases hrel with
    | none => exact .none
    | some hr =>
      obtain ⟨h1, h2, h3⟩ := hr
      refine .some ⟨?_, h3⟩
      dsimp only
      rw [h1, h2]
      rfl
  | cancel id =>
    obtain ⟨h1, h2⟩ := Relabel.cancel_relabel h unsequenced_faithful id
    refine .some ⟨?_, h2⟩
    dsimp only
    rw [h1]
    rfl

/-- the book call that a call stands for, whatever its sequence number -/
def Call.op : Call → Op
  | .submit order => .submit { order with sequence := 0 }
  | .cancel _ id => .cancel id

theorem select_stamped (s : Bytes) (next : UInt64) (calls : List Call) :
    (select s (stamped next calls)).map Op.unsequenced
      = (calls.filter fun c => decide (c.symbol = s)).map Call.op := by
  induction calls generalizing next with
  | nil => rfl
  | cons call calls ih =>
    have hop : (call.stamped next).1 = call.symbol ∧
        (call.stamped next).2.unsequenced = call.op := by
      cases call with
      | submit order =>
        refine ⟨rfl, ?_⟩
        show Op.submit _ = Op.submit _
        unfold MatchingEngine.stamp
        split_ifs <;> rfl
      | cancel symbol id => exact ⟨rfl, rfl⟩
    obtain ⟨h1, h2⟩ := hop
    rw [stamped, ← Prod.mk.eta (p := call.stamped next), h1]
    by_cases hs : call.symbol = s
    · rw [hs, select_cons_self, List.map_cons, h2, ih, List.filter_cons_of_pos (by simpa using hs),
        List.map_cons]
    · rw [select_cons_ne hs, ih, List.filter_cons_of_neg (by simpa using hs)]

/-- two runs of a book whose calls differ in sequence numbers only -/
theorem run_alike {symbol : Bytes} {ops ops' : List Op} {outs outs' : List Outcome}
    {book book' : OrderBook} (hops : ops.map Op.unsequenced = ops'.map Op.unsequenced)
    (h : run OrderBook.perform (OrderBook.new symbol) ops = some (outs, book))
    (h' : run OrderBook.perform (OrderBook.new symbol) ops' = some (outs', book')) :
    outs.map Outcome.unsequenced = outs'.map Outcome.unsequenced ∧ book.Alike book' := by
  have hnew : unsequenced.Books (fun _ => True) (OrderBook.new symbol) (OrderBook.new symbol) :=
    ⟨rfl, fun s => by cases s <;> rfl, fun _ _ _ => trivial, fun id => rfl⟩
  -- both runs are compared with the run without sequence numbers
  have hrel := run_rel OrderBook.perform_unsequenced hnew ops
  have hrel' := run_rel OrderBook.perform_unsequenced hnew ops'
  rw [h, hops] at hrel
  rw [h'] at hrel'
  generalize run OrderBook.perform (OrderBook.new symbol) (ops'.map Op.unsequenced) = y at hrel hrel'
  cases hrel with
  | some hr =>
    cases hrel' with
    | some hr' =>
      obtain ⟨e1, b1⟩ := hr
      obtain ⟨e2, b2⟩ := hr'
      refine ⟨e1.symm.trans e2, b1.symbol.symm.trans b2.symbol,
        fun s => (b1.levels s).symm.trans (b2.levels s), ?_⟩
      refine Finmap.ext_lookup fun i => ?_
      have := (b1.live i).symm.trans (b2.live i)
      rw [show unsequenced.side = id from rfl, Option.map_id] at this
      exact this

/-- **Symbol isolation.**  Every run has a result.  For each symbol its answers and its last book
are those of a book alone, given the calls of the symbol as the engine stamped them.  A `submit`
never answers "symbol mismatch", and the makers of its fills rest in the book of its symbol.  Two
runs with the same calls of a symbol have the same answers and books of it up to sequence numbers. -/
theorem symbol_isolation (symbols : List Bytes) (calls : List Call) :
    ∃ log engine, run MatchingEngine.perform (MatchingEngine.prepared symbols) calls
        = some (log, engine) ∧
      log.map Prod.fst = calls.map Call.symbol ∧
      (∀ s, run OrderBook.perform (OrderBook.new s) (select s (stamped 1 calls))
        = some (select s log, engine.bookOf s)) ∧
      (∀ order fills, ∃ ack new engine',
        engine.submit order fills = some (ack, fills ++ new, engine') ∧
        ack.reason ≠ ascii "symbol mismatch" ∧
        ∀ f ∈ new, f.takerId = order.id ∧
          ∃ m ∈ (engine.bookOf order.symbol).orders order.side.opposite,
            f.makerId = m.id ∧ m.symbol = order.symbol) ∧
      (∀ symbols' calls' log' engine',
        run MatchingEngine.perform (MatchingEngine.prepared symbols') calls'
          = some (log', engine') →
        ∀ s, calls.filter (fun c => decide (c.symbol = s))
            = calls'.filter (fun c => decide (c.symbol = s)) →
          (select s log).map Outcome.unsequenced = (select s log').map Outcome.unsequenced ∧
            (engine.bookOf s).Alike (engine'.bookOf s)) := by
  obtain ⟨log, engine, he, hinv, hrun⟩ := MatchingEngine.run_books symbols calls
  refine ⟨log, engine, he, MatchingEngine.run_symbols he, hrun, ?_, ?_⟩
  · intro order fills
    obtain ⟨hbook, hsym⟩ := hinv order.symbol
    obtain ⟨ack, new, book', e, hf⟩ :=
      hbook.submit_fills (MatchingEngine.stamp engine.nextSequence order) fills
    obtain ⟨engine', e', _⟩ := MatchingEngine.submit_book e
    refine ⟨ack, new, engine', e', OrderBook.submit_reason ?_ e, ?_⟩
    · rw [MatchingEngine.stamp_symbol, hsym]
    · have hstamp : (MatchingEngine.stamp engine.nextSequence order).id = order.id ∧
          (MatchingEngine.stamp engine.nextSequence order).side = order.side := by
        unfold MatchingEngine.stamp
        split_ifs <;> exact ⟨rfl, rfl⟩
      rw [hstamp.1, hstamp.2, hsym] at hf
      exact hf
  · intro symbols' calls' log' engine' he' s hcalls
    obtain ⟨log₁, engine₁, he₁, _, hrun'⟩ := MatchingEngine.run_books symbols' calls'
    rw [he₁] at he'
    cases he'
    refine run_alike ?_ (hrun s) (hrun' s)
    rw [select_stamped, select_stamped, hcalls]

end Matching
