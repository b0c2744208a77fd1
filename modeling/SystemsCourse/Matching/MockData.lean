import SystemsCourse.Lib.Decimal
import SystemsCourse.Lib.Getline
import SystemsCourse.Matching.OrderBook

/-!
# Order files

Model of `write_mock_orders` and `read_mock_orders` in
`capstone/matching/solution-reference/src/mock_data.cpp`, over the bytes of the file.

The reader takes the fields of a row from one string stream into one string; it does not look at the
state of the stream.

* `readMockOrders_eq`   the reader parses the lines after the first one;
* `parseRow_row`        a row is parsed as the order it was written for;
* `order_files`         the round trip.
-/

namespace Matching
open Wire Decimal Getline

/-- `std::invalid_argument` and `std::out_of_range`; `front()` of an empty string is undefined -/
inductive ReadFailure where
  | threw (failure : Failure)
  | emptyFront
deriving DecidableEq

/-! ## the writer -/

def header : Bytes := ascii "id,symbol,side,price_ticks,quantity,sequence,tif"

/-- `'B'` or `'S'` -/
def sideChar (side : Side) : UInt8 := if side = .buy then 66 else 83

/-- `'G'` or `'I'` -/
def tifChar (tif : TimeInForce) : UInt8 := if tif = .goodTillCancel then 71 else 73

/-- a row, without the line feed -/
def row (order : Order) : Bytes :=
  print order.id.toNat ++ ascii "," ++ order.symbol ++ ascii "," ++ [sideChar order.side] ++ ascii "," ++
    printInt order.priceTicks.toInt ++ ascii "," ++ print order.quantity.toNat ++ ascii "," ++
    print order.sequence.toNat ++ ascii "," ++ [tifChar order.tif]

def writeMockOrders (orders : List Order) : Bytes :=
  header ++ ascii "\n" ++ orders.flatMap fun order => row order ++ ascii "\n"

/-! ## the reader -/

def front : Bytes → Except ReadFailure UInt8
  | [] => .error .emptyFront
  | c :: _ => .ok c

def field {α : Type} (result : Except Failure α) : Except ReadFailure α :=
  result.mapError .threw

/-- the order of a line; 44 is the comma -/
def parseRow (line : Bytes) : Except ReadFailure Order := do
  let (text, parser) := getline 44 { rest := line } []
  let id ← field (stoull text)
  let (symbol, parser) := getline 44 parser []
  let (text, parser) := getline 44 parser text
  let side ← front text
  let (text, parser) := getline 44 parser text
  let priceTicks ← field (stoll text)
  let (text, parser) := getline 44 parser text
  let quantity ← field (stoull text)
  let (text, parser) := getline 44 parser text
  let sequence ← field (stoull text)
  let (text, _) := getline 44 parser text
  let tif ← front text
  return { id := id, symbol := symbol, side := if side = 66 then .buy else .sell,
           priceTicks := priceTicks, quantity := quantity, sequence := sequence,
           tif := if tif = 73 then .immediateOrCancel else .goodTillCancel }

def pushRow (orders : List Order) (line : Bytes) : Except ReadFailure (List Order) := do
  let order ← parseRow line
  return orders ++ [order]

/-- 10 is the line feed -/
def readMockOrders (file : Bytes) : Except ReadFailure (List Order) :=
  let (line, input) := getline 10 { rest := file } []
  whileGetline 10 pushRow input line []

/-! ## rows -/

theorem sideChar_inv (side : Side) : (if sideChar side = 66 then Side.buy else .sell) = side := by
  cases side <;> rfl

theorem tifChar_inv (tif : TimeInForce) :
    (if tifChar tif = 73 then TimeInForce.immediateOrCancel else .goodTillCancel) = tif := by
  cases tif <;> rfl

/-- the fields that are not symbols contain no comma and no line feed -/
theorem notMem_fields {c : UInt8} (hc : c = 44 ∨ c = 10) (o : Order) :
    (∀ n, c ∉ print n) ∧ c ∉ printInt o.priceTicks.toInt ∧ c ∉ [sideChar o.side] ∧
      c ∉ [tifChar o.tif] := by
  have hprint (n : ℕ) : c ∉ print n := by
    intro h
    have hd := isDigit_of_mem_print h
    rcases hc with rfl | rfl <;> cases hd
  refine ⟨hprint, ?_, ?_, ?_⟩
  · rw [printInt_eq]
    split_ifs
    · rw [List.mem_cons, not_or]
      refine ⟨?_, hprint _⟩
      rcases hc with rfl | rfl <;> decide
    · exact hprint _
  · rcases hc with rfl | rfl <;> cases o.side <;> decide
  · rcases hc with rfl | rfl <;> cases o.tif <;> decide

/-- the fields of a row, each but the last with a comma after it -/
theorem row_eq (o : Order) :
    row o = print o.id.toNat ++ 44 :: (o.symbol ++ 44 :: ([sideChar o.side] ++ 44 ::
      (printInt o.priceTicks.toInt ++ 44 :: (print o.quantity.toNat ++ 44 ::
        (print o.sequence.toNat ++ 44 :: [tifChar o.tif]))))) := by
  unfold row
  rw [show ascii "," = [44] from rfl]
  simp only [List.append_assoc, List.cons_append, List.nil_append]

/-! ### one field after another -/

/-- `parseRow` from the time in force on, with the fields of `o` before it -/
def fromTif (o : Order) (text : Bytes) (parser : IStream) : Except ReadFailure Order := do
  let (text, _) := getline 44 parser text
  let tif ← front text
  return { o with tif := if tif = 73 then .immediateOrCancel else .goodTillCancel }

def fromSequence (o : Order) (text : Bytes) (parser : IStream) : Except ReadFailure Order := do
  let (text, parser) := getline 44 parser text
  let sequence ← field (stoull text)
  fromTif { o with sequence := sequence } text parser

def fromQuantity (o : Order) (text : Bytes) (parser : IStream) : Except ReadFailure Order := do
  let (text, parser) := getline 44 parser text
  let quantity ← field (stoull text)
  fromSequence { o with quantity := quantity } text parser

def fromPrice (o : Order) (text : Bytes) (parser : IStream) : Except ReadFailure Order := do
  let (text, parser) := getline 44 parser text
  let priceTicks ← field (stoll text)
  fromQuantity { o with priceTicks := priceTicks } text parser

def fromSide (o : Order) (text : Bytes) (parser : IStream) : Except ReadFailure Order := do
  let (text, parser) := getline 44 parser text
  let side ← front text
  fromPrice { o with side := if side = 66 then .buy else .sell } text parser

section
variable {o : Order} {text rest : Bytes}

/-- the id and the symbol, with a comma after each -/
theorem parseRow_symbol (h : 44 ∉ o.symbol) :
    parseRow (print o.id.toNat ++ 44 :: (o.symbol ++ 44 :: rest))
      = fromSide { id := o.id, symbol := o.symbol } (print o.id.toNat) { rest := rest } := by
  unfold parseRow
  rw [getline_line ((notMem_fields (Or.inl rfl) o).1 _)]
  dsimp only
  rw [stoull_print, getline_line h]
  rfl

/-- the first three fields, with a comma after the side -/
theorem parseRow_line (h : 44 ∉ o.symbol) :
    parseRow (print o.id.toNat ++ 44 :: (o.symbol ++ 44 :: ([sideChar o.side] ++ 44 :: rest)))
      = fromPrice { id := o.id, symbol := o.symbol, side := o.side } [sideChar o.side]
          { rest := rest } := by
  obtain ⟨_, _, hside, _⟩ := notMem_fields (Or.inl rfl) o
  rw [parseRow_symbol h]
  unfold fromSide
  rw [getline_line hside]
  show fromPrice { id := o.id, symbol := o.symbol, side := if sideChar o.side = 66 then .buy else .sell }
    [sideChar o.side] { rest := rest } = _
  rw [sideChar_inv]

theorem fromPrice_line (priceTicks : Int64) :
    fromPrice o text { rest := printInt priceTicks.toInt ++ 44 :: rest }
      = fromQuantity { o with priceTicks := priceTicks } (printInt priceTicks.toInt) { rest := rest } := by
  obtain ⟨_, hprice, _⟩ := notMem_fields (Or.inl rfl) { o with priceTicks := priceTicks }
  unfold fromPrice
  rw [getline_line hprice]
  dsimp only
  rw [stoll_print]
  rfl

theorem fromQuantity_line (quantity : UInt64) :
    fromQuantity o text { rest := print quantity.toNat ++ 44 :: rest }
      = fromSequence { o with quantity := quantity } (print quantity.toNat) { rest := rest } := by
  unfold fromQuantity
  rw [getline_line ((notMem_fields (Or.inl rfl) o).1 _)]
  dsimp only
  rw [stoull_print]
  rfl

theorem fromSequence_line (sequence : UInt64) :
    fromSequence o text { rest := print sequence.toNat ++ 44 :: rest }
      = fromTif { o with sequence := sequence } (print sequence.toNat) { rest := rest } := by
  unfold fromSequence
  rw [getline_line ((notMem_fields (Or.inl rfl) o).1 _)]
  dsimp only
  rw [stoull_print]
  rfl

theorem fromTif_last (tif : TimeInForce) :
    fromTif o text { rest := [tifChar tif] } = .ok { o with tif := tif } := by
  obtain ⟨_, _, _, htif⟩ := notMem_fields (Or.inl rfl) { o with tif := tif }
  unfold fromTif
  rw [getline_last htif]
  show Except.ok _ = Except.ok _
  rw [tifChar_inv]

end

/-- **a row is read back** -/
theorem parseRow_row (o : Order) (h : 44 ∉ o.symbol) : parseRow (row o) = .ok o := by
  rw [row_eq, parseRow_line h, fromPrice_line, fromQuantity_line, fromSequence_line, fromTif_last]

theorem feed_notMem_row (o : Order) (h : 10 ∉ o.symbol) : 10 ∉ row o := by
  obtain ⟨hprint, hprice, hside, htif⟩ := notMem_fields (Or.inr rfl) o
  have hcomma : ¬ (10 : UInt8) = 44 := by decide
  rw [row_eq]
  simp only [List.mem_append, List.mem_cons, not_or] at hside htif ⊢
  exact ⟨hprint _, hcomma, h, hcomma, hside, hcomma, hprice, hcomma, hprint _, hcomma, hprint _, hcomma,
    htif⟩

/-! ## files -/

/-- the reader parses the lines after the first one -/
theorem readMockOrders_eq (file : Bytes) :
    readMockOrders file = (lines 10 file).tail.foldlM pushRow [] := by
  unfold readMockOrders
  by_cases hmem : 10 ∈ file
  · obtain ⟨l, rest, rfl, hl⟩ := List.eq_append_cons_of_mem hmem
    rw [getline_line hl, lines_line hl]
    exact whileGetline_eq 10 pushRow rest l []
  · rw [getline_last hmem]
    dsimp only
    rw [whileGetline_end _ _ rfl]
    cases file with
    | nil => rfl
    | cons c file =>
      rw [lines_last hmem (List.cons_ne_nil c file)]
      rfl

theorem foldlM_pushRow {orders : List Order} (h : ∀ o ∈ orders, 44 ∉ o.symbol) (done : List Order) :
    (orders.map row).foldlM pushRow done = .ok (done ++ orders) := by
  induction orders generalizing done with
  | nil =>
    rw [List.append_nil]
    rfl
  | cons o orders ih =>
    have hrow : pushRow done (row o) = .ok (done ++ [o]) := by
      unfold pushRow
      rw [parseRow_row o (h o List.mem_cons_self)]
      rfl
    rw [List.map_cons, List.foldlM_cons, hrow]
    show List.foldlM pushRow (done ++ [o]) (orders.map row) = _
    rw [ih (fun o ho => h o (List.mem_cons_of_mem _ ho)), List.append_assoc, List.singleton_append]

/-- the lines of a file that was written, with more bytes behind it -/
theorem lines_writeMockOrders {orders : List Order} (h : ∀ o ∈ orders, 10 ∉ o.symbol) (rest : Bytes) :
    lines 10 (writeMockOrders orders ++ rest) = header :: (orders.map row ++ lines 10 rest) := by
  have hheader : 10 ∉ header := by decide
  have hrows : ∀ l ∈ orders.map row, 10 ∉ l := by
    intro l hl
    obtain ⟨o, ho, rfl⟩ := List.mem_map.mp hl
    exact feed_notMem_row o (h o ho)
  unfold writeMockOrders
  rw [show ascii "\n" = [10] from rfl, List.append_assoc, List.append_assoc, List.singleton_append,
    lines_line hheader, ← List.flatMap_map row fun l => l ++ [10], lines_flatMap hrows]

/-- whole rows are read, and then what is behind them -/
theorem readMockOrders_append {orders : List Order} (h : ∀ o ∈ orders, 44 ∉ o.symbol ∧ 10 ∉ o.symbol)
    (rest : Bytes) :
    readMockOrders (writeMockOrders orders ++ rest) = (lines 10 rest).foldlM pushRow orders := by
  rw [readMockOrders_eq, lines_writeMockOrders (fun o ho => (h o ho).2) rest, List.tail_cons,
    List.foldlM_append, foldlM_pushRow fun o ho => (h o ho).1]
  rfl

/-- a file is read as the orders it was written for -/
theorem readMockOrders_written {orders : List Order} (h : ∀ o ∈ orders, 44 ∉ o.symbol ∧ 10 ∉ o.symbol) :
    readMockOrders (writeMockOrders orders) = .ok orders := by
  have hall := readMockOrders_append h []
  rw [List.append_nil] at hall
  exact hall

/-- **Order files round-trip.** -/
theorem order_files (orders : List Order) (h : ∀ o ∈ orders, 44 ∉ o.symbol ∧ 10 ∉ o.symbol) :
    readMockOrders (writeMockOrders orders) = .ok orders :=
  readMockOrders_written h

/-- the limits of the numbers, an empty symbol and one with white space -/
def limits : List Order :=
  [{ id := 18446744073709551615, symbol := [], side := .sell, priceTicks := -9223372036854775808,
     quantity := 0, sequence := 18446744073709551615, tif := .immediateOrCancel },
   { id := 0, symbol := ascii " A B\r", side := .buy, priceTicks := 9223372036854775807, quantity := 1,
     sequence := 0, tif := .goodTillCancel }]

theorem order_files_limits :
    (∀ o ∈ limits, 44 ∉ o.symbol ∧ 10 ∉ o.symbol) ∧
      readMockOrders (writeMockOrders limits) = .ok limits := by
  have h : ∀ o ∈ limits, 44 ∉ o.symbol ∧ 10 ∉ o.symbol := by decide
  exact ⟨h, order_files limits h⟩

end Matching
