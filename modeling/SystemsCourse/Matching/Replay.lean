import SystemsCourse.Matching.Generator
import SystemsCourse.Matching.Market
import SystemsCourse.Matching.MockData

/-!
# Generate and replay

Model of `capstone/matching/solution-reference/apps/mock_generate_main.cpp` and `matching_main.cpp`, with the
files of the machine as a function of their path.

* `fillLine`          a fill as it is printed; `fillLines_injective`: the log is unambiguous;
* `replay_run`        the loop of `matching_main` is a run of the engine;
* `replay_program`    what `matching-engine` prints for any file that can be read;
* `generate_and_replay`  what it prints for a file of `mock-generate`.
-/

set_option linter.unusedVariables false

namespace Matching
open Wire Family Decimal Getline

structure Console where
  out : Bytes := []
  err : Bytes := []

/-- how a program ends -/
inductive Exit where
  | returned (code : ℕ) (console : Console)
  /-- an exception that nobody catches -/
  | terminated (failure : ReadFailure)
  /-- the exception of `reserve` -/
  | outOfMemory

/-- the content of the files that exist -/
abbrev Files := Bytes → Option Bytes

/-! ## `matching-engine` -/

/-- a fill, without the line feed -/
def fillRow (fill : Fill) : Bytes :=
  print fill.sequence.toNat ++ ascii "," ++ print fill.takerId.toNat ++ ascii "," ++
    print fill.makerId.toNat ++ ascii "," ++ [sideChar fill.takerSide] ++ ascii "," ++
    printInt fill.priceTicks.toInt ++ ascii "," ++ print fill.quantity.toNat

def fillLine (fill : Fill) : Bytes := fillRow fill ++ ascii "\n"

def rejectLine (ack : Ack) : Bytes :=
  ascii "reject order=" ++ print ack.orderId.toNat ++ ascii " reason=" ++ ack.reason ++ ascii "\n"

def summaryLine (orders : ℕ) (fills : UInt64) : Bytes :=
  ascii "orders=" ++ print orders ++ ascii " fills=" ++ print fills.toNat ++ ascii "\n"

structure Replay where
  engine : MatchingEngine
  fills : UInt64
  console : Console

/-- the body of the loop -/
def Replay.submit (r : Replay) (order : Order) : Option Replay :=
  match r.engine.submit order [] with
  | none => none
  | some (ack, emitted, engine) =>
    if ack.accepted then
      some ⟨engine, r.fills + .ofNat emitted.length,
        { r.console with out := r.console.out ++ emitted.flatMap fillLine }⟩
    else some ⟨engine, r.fills, { r.console with err := r.console.err ++ rejectLine ack }⟩

/-- `none` if the behaviour is undefined; a file that does not exist is read like an empty one -/
def matchingMain (args : List Bytes) (files : Files) : Option Exit :=
  match args with
  | _ :: path :: _ =>
    match readMockOrders ((files path).getD []) with
    | .error .emptyFront => none
    | .error failure => some (.terminated failure)
    | .ok orders =>
      (orders.foldlM Replay.submit ⟨.prepared (orders.map Order.symbol), 0, {}⟩).map fun r =>
        .returned 0 { r.console with err := r.console.err ++ summaryLine orders.length r.fills }
  | _ => some (.returned 2 { err := ascii "usage: matching-engine orders.csv\n" })

/-! ## `mock-generate` -/

/-- the output file and the configuration -/
def mockArgs (args : List Bytes) : Bytes × MockDataConfig :=
  (args[1]?.getD (ascii "mock-orders.csv"),
    { count := (args[2]?.map strtoull).getD 100000, seed := (args[3]?.map strtoull).getD 0x5eed })

/-- what happens to the bytes of an `ofstream` -/
inductive Disk where
  /-- the file cannot be opened -/
  | refused
  /-- a write failed after the first `kept` bytes -/
  | failed (kept : ℕ)
  /-- no write failed, but the last `lost` bytes were still buffered and the destructor could not write them -/
  | closed (lost : ℕ)

/-- the result of `write_mock_orders` and the content of the file -/
def Disk.store (disk : Disk) (bytes : Bytes) (before : Option Bytes) : Bool × Option Bytes :=
  match disk with
  | .refused => (false, before)
  | .failed kept => (false, some (bytes.take kept))
  | .closed lost => (true, some (bytes.take (bytes.length - lost)))

/-- `room` is the number of orders that can be reserved -/
def mockGenerateMain (args : List Bytes) (room : ℕ) (disk : Disk) (files : Files) : Option (Exit × Files) :=
  let (output, config) := mockArgs args
  if room < config.count.toNat then some (.outOfMemory, files) else
  (generateMockOrders config).map fun orders =>
    let (good, content) := disk.store (writeMockOrders orders) (files output)
    (if good then
        .returned 0 { out := ascii "wrote " ++ print orders.length ++ ascii " deterministic orders to " ++
          output ++ ascii " seed=" ++ print config.seed.toNat ++ ascii "\n" }
      else .returned 1 { err := ascii "could not write " ++ output ++ ascii "\n" },
      Function.update files output content)

/-! ## the log of the fills -/

theorem fillRow_eq (f : Fill) :
    fillRow f = print f.sequence.toNat ++ 44 :: (print f.takerId.toNat ++ 44 ::
      (print f.makerId.toNat ++ 44 :: ([sideChar f.takerSide] ++ 44 ::
        (printInt f.priceTicks.toInt ++ 44 :: print f.quantity.toNat)))) := by
  unfold fillRow
  rw [show ascii "," = [44] from rfl]
  simp only [List.append_assoc, List.cons_append, List.nil_append]

/-- the fields contain no comma and no line feed -/
theorem notMem_fill {c : UInt8} (hc : c = 44 ∨ c = 10) (f : Fill) :
    (∀ n, c ∉ print n) ∧ c ∉ printInt f.priceTicks.toInt ∧ c ∉ [sideChar f.takerSide] := by
  obtain ⟨hprint, hprice, hside, -⟩ :=
    notMem_fields hc { side := f.takerSide, priceTicks := f.priceTicks }
  exact ⟨hprint, hprice, hside⟩

theorem feed_notMem_fillRow (f : Fill) : 10 ∉ fillRow f := by
  obtain ⟨hprint, hprice, hside⟩ := notMem_fill (.inr rfl) f
  have hcomma : ¬ (10 : UInt8) = 44 := by decide
  rw [fillRow_eq]
  simp only [List.mem_append, List.mem_cons, not_or]
  exact ⟨hprint _, hcomma, hprint _, hcomma, hprint _, hcomma, ⟨fun h => hside (h ▸ List.mem_singleton_self _),
    List.not_mem_nil⟩, hcomma, hprice, hcomma, hprint _⟩

theorem print_toNat_inj {a b : UInt64} (h : print a.toNat = print b.toNat) : a = b := by
  have hread := stoull_print a
  rw [h, stoull_print] at hread
  exact (Except.ok.inj hread).symm

theorem printInt_toInt_inj {a b : Int64} (h : printInt a.toInt = printInt b.toInt) : a = b := by
  have hread := stoll_print a
  rw [h, stoll_print] at hread
  exact (Except.ok.inj hread).symm

theorem sideChar_inj {a b : Side} (h : sideChar a = sideChar b) : a = b := by
  rw [← sideChar_inv a, h, sideChar_inv]

/-- a field ends at its comma -/
theorem field_inj {a b rest rest' : Bytes} (ha : (44 : UInt8) ∉ a) (hb : (44 : UInt8) ∉ b)
    (h : a ++ 44 :: rest = b ++ 44 :: rest') : a = b ∧ rest = rest' := by
  rcases List.append_eq_append_iff.mp h with ⟨c, rfl, hc⟩ | ⟨c, rfl, hc⟩
  · cases c with
    | nil => exact ⟨(List.append_nil a).symm, (List.cons.inj hc).2⟩
    | cons d c =>
      obtain ⟨rfl, -⟩ := List.cons.inj hc
      exact absurd (List.mem_append_right a List.mem_cons_self) hb
  · cases c with
    | nil => exact ⟨List.append_nil b, (List.cons.inj hc).2.symm⟩
    | cons d c =>
      obtain ⟨rfl, -⟩ := List.cons.inj hc
      exact absurd (List.mem_append_right b List.mem_cons_self) ha

theorem fillRow_injective : Function.Injective fillRow := by
  intro f g h
  rw [fillRow_eq, fillRow_eq] at h
  obtain ⟨hprint, hprice, hside⟩ := notMem_fill (.inl rfl) f
  obtain ⟨-, hprice', hside'⟩ := notMem_fill (.inl rfl) g
  obtain ⟨hsequence, h⟩ := field_inj (hprint _) (hprint _) h
  obtain ⟨htaker, h⟩ := field_inj (hprint _) (hprint _) h
  obtain ⟨hmaker, h⟩ := field_inj (hprint _) (hprint _) h
  obtain ⟨htakerSide, h⟩ := field_inj hside hside' h
  obtain ⟨hpriceTicks, hquantity⟩ := field_inj hprice hprice' h
  cases f
  cases g
  cases print_toNat_inj hsequence
  cases print_toNat_inj htaker
  cases print_toNat_inj hmaker
  cases sideChar_inj (List.head_eq_of_cons_eq htakerSide)
  cases printInt_toInt_inj hpriceTicks
  cases print_toNat_inj hquantity
  rfl

/-- **the log is unambiguous**: different lists of fills are printed differently -/
theorem fillLines_injective : Function.Injective fun fills : List Fill => fills.flatMap fillLine := by
  intro fs gs h
  have hlines (fills : List Fill) : lines 10 (fills.flatMap fillLine) = fills.map fillRow := by
    have hrows : ∀ l ∈ fills.map fillRow, 10 ∉ l := by
      intro l hl
      obtain ⟨f, -, rfl⟩ := List.mem_map.mp hl
      exact feed_notMem_fillRow f
    have hall := lines_flatMap hrows []
    rw [List.append_nil, List.flatMap_map] at hall
    exact hall.trans (List.append_nil _)
  have hmap : fs.map fillRow = gs.map fillRow := by
    rw [← hlines, ← hlines]
    exact congrArg (lines 10) h
  exact fillRow_injective.list_map hmap

/-! ## the loop -/

/-- the fills of the accepted orders -/
def fillsOf (log : List (Bytes × Outcome)) : List Fill :=
  log.flatMap fun e => match e.2 with
    | .ack ack fills => if ack.accepted then fills else []
    | .cancelled _ => []

def rejectsOf (log : List (Bytes × Outcome)) : List Ack :=
  log.filterMap fun e => match e.2 with
    | .ack ack _ => if ack.accepted then none else some ack
    | .cancelled _ => none

/-- **the loop is a run of the engine** -/
theorem replay_run {engine engine' : MatchingEngine} {orders : List Order} {log : List (Bytes × Outcome)}
    (h : run MatchingEngine.perform engine (orders.map .submit) = some (log, engine')) (fills : UInt64)
    (console : Console) :
    orders.foldlM Replay.submit ⟨engine, fills, console⟩
      = some ⟨engine', fills + .ofNat (fillsOf log).length,
          ⟨console.out ++ (fillsOf log).flatMap fillLine,
            console.err ++ (rejectsOf log).flatMap rejectLine⟩⟩ := by
  induction orders generalizing engine log fills console with
  | nil =>
    cases h
    rw [List.foldlM_nil]
    simp [fillsOf, rejectsOf]
  | cons order orders ih =>
    obtain ⟨e, engine₁, log', he, hrest, rfl⟩ := run_cons_eq_some h
    obtain ⟨⟨ack, emitted, engine₂⟩, hsubmit, hpair⟩ := Option.map_eq_some_iff.mp he
    cases hpair
    by_cases haccepted : ack.accepted = true
    · have hstep : Replay.submit ⟨engine, fills, console⟩ order
          = some ⟨engine₂, fills + .ofNat emitted.length,
              ⟨console.out ++ emitted.flatMap fillLine, console.err⟩⟩ := by
        rw [Replay.submit, hsubmit]
        exact if_pos haccepted
      have hfills : fillsOf ((order.symbol, .ack ack emitted) :: log') = emitted ++ fillsOf log' := by
        simp [fillsOf, haccepted]
      have hrejects : rejectsOf ((order.symbol, .ack ack emitted) :: log') = rejectsOf log' := by
        simp [rejectsOf, haccepted]
      rw [List.foldlM_cons, hstep, hfills, hrejects]
      refine (ih hrest _ _).trans ?_
      rw [List.length_append, List.flatMap_append, UInt64.ofNat_add, UInt64.add_assoc, List.append_assoc]
    · have hstep : Replay.submit ⟨engine, fills, console⟩ order
          = some ⟨engine₂, fills, ⟨console.out, console.err ++ rejectLine ack⟩⟩ := by
        rw [Replay.submit, hsubmit]
        exact if_neg haccepted
      have hfills : fillsOf ((order.symbol, .ack ack emitted) :: log') = fillsOf log' := by
        simp [fillsOf, haccepted]
      have hrejects : rejectsOf ((order.symbol, .ack ack emitted) :: log') = ack :: rejectsOf log' := by
        simp [rejectsOf, haccepted]
      rw [List.foldlM_cons, hstep, hfills, hrejects]
      refine (ih hrest _ _).trans ?_
      rw [List.flatMap_cons, List.append_assoc]

/-- what is printed for the orders of a file -/
theorem matchingMain_eq {args : List Bytes} {name path : Bytes} (hargs : args = name :: path :: args.drop 2)
    {files : Files} {orders : List Order} (hread : readMockOrders ((files path).getD []) = .ok orders)
    {log : List (Bytes × Outcome)} {engine : MatchingEngine}
    (hrun : run MatchingEngine.perform (.prepared (orders.map Order.symbol)) (orders.map .submit)
      = some (log, engine)) :
    matchingMain args files = some (.returned 0 ⟨(fillsOf log).flatMap fillLine,
      (rejectsOf log).flatMap rejectLine ++ summaryLine orders.length (.ofNat (fillsOf log).length)⟩) := by
  have hreplay := replay_run hrun 0 {}
  rw [hargs, matchingMain, hread]
  dsimp only
  rw [hreplay, UInt64.zero_add]
  rfl

/-- **The replay program.**  For every file that can be read, `matching-engine` prints one line for each fill
of the market, in order, and one for each rejection, and ends with the number of both.  No other list of
fills is printed in the same way. -/
theorem replay_program (name path : Bytes) (rest : List Bytes) (files : Files) (orders : List Order)
    (hread : readMockOrders ((files path).getD []) = .ok orders) :
    ∃ log market out, run Market.perform Market.new (orders.map .submit) = some (log, market) ∧
      matchingMain (name :: path :: rest) files = some (.returned 0 ⟨out,
        (rejectsOf log).flatMap rejectLine ++ summaryLine orders.length (.ofNat (fillsOf log).length)⟩) ∧
      ∀ fills : List Fill, fills.flatMap fillLine = out ↔ fills = fillsOf log := by
  obtain ⟨log, engine, market, hengine, hmarket, -⟩ :=
    run_represents (orders.map Order.symbol) (orders.map .submit)
  refine ⟨log, market, _, hmarket, matchingMain_eq rfl hread hengine, fun fills => ?_⟩
  exact ⟨fun h => fillLines_injective h, fun h => by rw [h]⟩

/-- two orders that trade, and one that is rejected -/
def crossing : List Order :=
  [{ id := 1, symbol := ascii "A", side := .sell, priceTicks := 100, quantity := 7, sequence := 0 },
   { id := 2, symbol := ascii "A", side := .buy, priceTicks := 103, quantity := 5, sequence := 0 },
   { id := 1, symbol := ascii "A", side := .buy, priceTicks := 103, quantity := 5, sequence := 0 }]

theorem replay_program_crossing :
    matchingMain [ascii "matching-engine", ascii "o.csv"] (fun _ => some (writeMockOrders crossing))
      = some (.returned 0 ⟨ascii "2,2,1,B,100,5\n",
          ascii "reject order=1 reason=duplicate live order id\norders=3 fills=1\n"⟩) := by
  have hread : readMockOrders (writeMockOrders crossing) = .ok crossing :=
    readMockOrders_written (by decide)
  obtain ⟨log, market, out, hmarket, hmain, hout⟩ :=
    replay_program (ascii "matching-engine") (ascii "o.csv") [] (fun _ => some (writeMockOrders crossing))
      crossing hread
  have hlog : (run Market.perform Market.new (crossing.map .submit)).map
      (fun x => (fillsOf x.1, rejectsOf x.1))
        = some ([⟨2, 1, .buy, 100, 5, 2⟩], [⟨1, false, 0, ascii "duplicate live order id"⟩]) := by
    decide +kernel
  rw [hmarket] at hlog
  obtain ⟨hfills, hrejects⟩ := Prod.mk.inj (Option.some.inj hlog)
  rw [hmain, ← (hout _).mpr rfl, hfills, hrejects]
  rfl

theorem rejectsOf_accepted {orders : List Order} {log : List (Bytes × Outcome)}
    (h : List.Forall₂ AcceptedAs orders log) : rejectsOf log = [] := by
  induction h with
  | nil => rfl
  | cons ho _ ih =>
    obtain ⟨ack, fills, rfl, -, haccepted⟩ := ho
    simpa [rejectsOf, haccepted] using ih

/-- what `mock-generate` does if the orders can be reserved and the file can be written -/
theorem mockGenerateMain_eq {args : List Bytes} {room : ℕ} (files : Files)
    (hroom : (mockArgs args).2.count.toNat ≤ room) {orders : List Order}
    (h : generateMockOrders (mockArgs args).2 = some orders) :
    ∃ console, mockGenerateMain args room (.closed 0) files
      = some (.returned 0 console,
          Function.update files (mockArgs args).1 (some (writeMockOrders orders))) := by
  unfold mockGenerateMain
  dsimp only
  rw [if_neg (Nat.not_lt.mpr hroom), h]
  dsimp only [Option.map_some, Disk.store]
  rw [Nat.sub_zero, List.take_length]
  exact ⟨_, rfl⟩

/-- the prices of `mock-generate` are positive and do not overflow -/
theorem mockArgs_band (args : List Bytes) :
    1 ≤ (mockArgs args).2.centerPriceTicks.toInt - (mockArgs args).2.bandTicks.toInt ∧
      (mockArgs args).2.centerPriceTicks.toInt + (mockArgs args).2.bandTicks.toInt ≤ 2^63 - 1 :=
  (by decide : (1 : ℤ) ≤ 10000 - 500 ∧ (10000 : ℤ) + 500 ≤ 2^63 - 1)

theorem generated_written {config : MockDataConfig} (hsymbol : 44 ∉ config.symbol ∧ 10 ∉ config.symbol)
    {indices : List ℕ} {orders : List Order} (h : List.Forall₂ (MockOrder config) indices orders) :
    readMockOrders (writeMockOrders orders) = .ok orders := by
  refine readMockOrders_written fun o ho => ?_
  obtain ⟨index, hindex⟩ := exists_mockOrder h ho
  rw [hindex.symbol]
  exact hsymbol

/-- **Generate and replay.**  Whatever the arguments of `mock-generate` are, `matching-engine` reads the
orders that were generated, accepts every one, and prints the fills of the market. -/
theorem generate_and_replay (args : List Bytes) (room : ℕ) (files : Files) (name : Bytes) (rest : List Bytes)
    (hroom : (mockArgs args).2.count.toNat ≤ room) :
    ∃ orders log market console files',
      generateMockOrders (mockArgs args).2 = some orders ∧ orders.length = (mockArgs args).2.count.toNat ∧
      mockGenerateMain args room (.closed 0) files = some (.returned 0 console, files') ∧
      readMockOrders ((files' (mockArgs args).1).getD []) = .ok orders ∧
      run Market.perform Market.new (orders.map .submit) = some (log, market) ∧
      List.Forall₂ AcceptedAs orders log ∧
      matchingMain (name :: (mockArgs args).1 :: rest) files' = some (.returned 0
        ⟨(fillsOf log).flatMap fillLine, summaryLine orders.length (.ofNat (fillsOf log).length)⟩) := by
  obtain ⟨hlo, hhi⟩ := mockArgs_band args
  obtain ⟨orders, hgenerate, hall⟩ := generateMockOrders_spec hlo hhi
  obtain ⟨console, hmock⟩ := mockGenerateMain_eq files hroom hgenerate
  obtain ⟨log, engine, market, hengine, hmarket, -⟩ :=
    run_represents (orders.map Order.symbol) (orders.map .submit)
  have hread := generated_written
    (show 44 ∉ (mockArgs args).2.symbol ∧ 10 ∉ (mockArgs args).2.symbol from
      (by decide : 44 ∉ ascii "NETF" ∧ 10 ∉ ascii "NETF")) hall
  have haccepted : List.Forall₂ AcceptedAs orders log := by
    obtain ⟨log', engine', hrun, h⟩ := generated_accepted hlo hall (orders.map Order.symbol)
    rw [hengine] at hrun
    cases hrun
    exact h
  have hlength : orders.length = (mockArgs args).2.count.toNat := by
    rw [← hall.length_eq, List.length_range]
  have hcontent : readMockOrders (((Function.update files (mockArgs args).1
      (some (writeMockOrders orders))) (mockArgs args).1).getD []) = .ok orders := by
    rw [Function.update_self]
    exact hread
  refine ⟨orders, log, market, console, _, hgenerate, hlength, hmock, hcontent, hmarket, haccepted, ?_⟩
  rw [matchingMain_eq rfl hcontent hengine, rejectsOf_accepted haccepted]
  rfl

theorem generate_and_replay_three :
    ∃ orders log market console files',
      generateMockOrders { count := 3, seed := 7 } = some orders ∧ orders.length = 3 ∧
      mockGenerateMain [ascii "mock-generate", ascii "o.csv", ascii "3", ascii "7"] 3 (.closed 0)
        (fun _ => none) = some (.returned 0 console, files') ∧
      readMockOrders ((files' (ascii "o.csv")).getD []) = .ok orders ∧
      run Market.perform Market.new (orders.map .submit) = some (log, market) ∧
      List.Forall₂ AcceptedAs orders log ∧
      matchingMain [ascii "matching-engine", ascii "o.csv"] files' = some (.returned 0
        ⟨(fillsOf log).flatMap fillLine, summaryLine orders.length (.ofNat (fillsOf log).length)⟩) :=
  generate_and_replay [ascii "mock-generate", ascii "o.csv", ascii "3", ascii "7"] 3 (fun _ => none)
    (ascii "matching-engine") [] (by decide)

end Matching
