import SystemsCourse.Matching.MockData

/-!
# Truncated order files

What `read_mock_orders` makes of an order file that was cut.

The reader does not notice that a row ends early: a field that is missing is read as the last field that
was there.

* `fromPrice_end` and the like
                      the fields behind the end of a row;
* `RowCut`            the places of a row at which a cut does no harm;
* `harmless_iff`      there are no others;
* `truncated_orders`  a file that was cut is rejected, or read up to the cut, exactly if it was cut there;
* `cut_behind_id`     a file that was cut elsewhere.
-/

set_option linter.unusedVariables false

namespace Matching
open Wire Decimal Getline

/-! ## behind the end of a row -/

/-- the first character is neither `B` nor `I` -/
def Numeric (text : Bytes) : Prop := ∃ c rest, text = c :: rest ∧ c ≠ 66 ∧ c ≠ 73

/-- the text of a number, also of one that was cut -/
theorem Numeric.of_cut {z : ℤ} {t : Bytes} (ht : t <+: printInt z) (hne : t ≠ []) : Numeric t := by
  obtain ⟨c, rest, rfl⟩ := List.exists_cons_of_ne_nil hne
  have hmem : c ∈ printInt z := ht.subset List.mem_cons_self
  rw [printInt_eq] at hmem
  have hc : c = 45 ∨ isDigit c = true := by
    split_ifs at hmem
    · exact (List.mem_cons.mp hmem).imp_right isDigit_of_mem_print
    · exact Or.inr (isDigit_of_mem_print hmem)
  refine ⟨c, rest, rfl, ?_, ?_⟩
  · rintro rfl
    rcases hc with hc | hc <;> cases hc
  · rintro rfl
    rcases hc with hc | hc <;> cases hc

theorem Numeric.of_print {n : ℕ} {t : Bytes} (ht : t <+: print n) (hne : t ≠ []) : Numeric t :=
  Numeric.of_cut (show t <+: printInt n from ht) hne

theorem fromPrice_threw (o : Order) {s : IStream} (hs : s.eof = true) {text : Bytes} {failure : Failure}
    (hz : stoll text = .error failure) : fromPrice o text s = .error (.threw failure) := by
  unfold fromPrice
  rw [getline_bad hs]
  dsimp only
  rw [hz]
  rfl

section
variable (o : Order) {s : IStream} (hs : s.eof = true) {text : Bytes} (ht : Numeric text)
include hs ht

theorem fromTif_end : fromTif o text s = .ok { o with tif := .goodTillCancel } := by
  obtain ⟨c, rest, rfl, _, hc⟩ := ht
  unfold fromTif
  rw [getline_bad hs]
  show Except.ok _ = Except.ok _
  rw [if_neg hc]

theorem fromSequence_end {n : UInt64} (hn : stoull text = .ok n) :
    fromSequence o text s = .ok { o with sequence := n, tif := .goodTillCancel } := by
  unfold fromSequence
  rw [getline_bad hs]
  dsimp only
  rw [hn]
  exact fromTif_end { o with sequence := n } (s := { s with fail := true }) hs ht

theorem fromQuantity_end {n : UInt64} (hn : stoull text = .ok n) :
    fromQuantity o text s = .ok { o with quantity := n, sequence := n, tif := .goodTillCancel } := by
  unfold fromQuantity
  rw [getline_bad hs]
  dsimp only
  rw [hn]
  exact fromSequence_end { o with quantity := n } (s := { s with fail := true }) hs ht hn

theorem fromPrice_end {z : Int64} {n : UInt64} (hz : stoll text = .ok z) (hn : stoull text = .ok n) :
    fromPrice o text s
      = .ok { o with priceTicks := z, quantity := n, sequence := n, tif := .goodTillCancel } := by
  unfold fromPrice
  rw [getline_bad hs]
  dsimp only
  rw [hz]
  exact fromQuantity_end { o with priceTicks := z } (s := { s with fail := true }) hs ht hn

theorem fromSide_end {z : Int64} {n : UInt64} (hz : stoll text = .ok z) (hn : stoull text = .ok n) :
    fromSide o text s = .ok { o with side := .sell, priceTicks := z, quantity := n, sequence := n,
                                     tif := .goodTillCancel } := by
  obtain ⟨c, rest, rfl, hc, _⟩ := id ht
  unfold fromSide
  rw [getline_bad hs]
  show fromPrice { o with side := if c = 66 then .buy else .sell } (c :: rest) _ = _
  rw [if_neg hc]
  exact fromPrice_end { o with side := .sell } (s := { s with fail := true }) hs ht hz hn

theorem fromSide_threw {failure : Failure} (hz : stoll text = .error failure) :
    fromSide o text s = .error (.threw failure) := by
  obtain ⟨c, rest, rfl, _⟩ := ht
  unfold fromSide
  rw [getline_bad hs]
  exact fromPrice_threw _ (s := { s with fail := true }) hs hz

end

/-! ## the parts of a row -/

def rowToSide (o : Order) : Bytes := print o.id.toNat ++ 44 :: (o.symbol ++ 44 :: [sideChar o.side])

def rowToPrice (o : Order) : Bytes := rowToSide o ++ 44 :: printInt o.priceTicks.toInt

def rowToQuantity (o : Order) : Bytes := rowToPrice o ++ 44 :: print o.quantity.toNat

def rowToSequence (o : Order) : Bytes := rowToQuantity o ++ 44 :: print o.sequence.toNat

theorem rowToSide_append (o : Order) (rest : Bytes) :
    rowToSide o ++ rest = print o.id.toNat ++ 44 :: (o.symbol ++ 44 :: ([sideChar o.side] ++ rest)) := by
  unfold rowToSide
  rw [List.append_assoc, List.cons_append, List.append_assoc, List.cons_append]

theorem rowToPrice_append (o : Order) (rest : Bytes) :
    rowToPrice o ++ rest = rowToSide o ++ 44 :: (printInt o.priceTicks.toInt ++ rest) := by
  unfold rowToPrice
  rw [List.append_assoc, List.cons_append]

theorem rowToQuantity_append (o : Order) (rest : Bytes) :
    rowToQuantity o ++ rest = rowToPrice o ++ 44 :: (print o.quantity.toNat ++ rest) := by
  unfold rowToQuantity
  rw [List.append_assoc, List.cons_append]

theorem row_eq_sequence (o : Order) : row o = rowToSequence o ++ 44 :: [tifChar o.tif] := by
  rw [row_eq]
  unfold rowToSequence rowToQuantity rowToPrice rowToSide
  simp only [List.append_assoc, List.cons_append, List.nil_append]

/-- what is read of a row that ends behind its id or in its symbol -/
def idOnly (id : UInt64) (symbol : Bytes) : Order :=
  { id := id, symbol := symbol, side := .sell, priceTicks := .ofInt id.toNat, quantity := id,
    sequence := id }

/-- The cuts of a row that do no harm.  The reader throws where the next number has no digits or is too
large for its field; otherwise the fields that are missing have to be what is read for them. -/
inductive RowCut (o : Order) : Bytes → Prop
  | id : 2^63 ≤ o.id.toNat → RowCut o (print o.id.toNat)
  | idSame : o = idOnly o.id [] → RowCut o (print o.id.toNat)
  | symbol {t : Bytes} : 2^63 ≤ o.id.toNat → t <+: o.symbol → RowCut o (print o.id.toNat ++ 44 :: t)
  | symbolSame : o = idOnly o.id o.symbol → RowCut o (print o.id.toNat ++ 44 :: o.symbol)
  | side : RowCut o (rowToSide o)
  | sideComma : RowCut o (rowToSide o ++ [44])
  | minus : o.priceTicks.toInt < 0 → RowCut o (rowToSide o ++ [44, 45])
  | priceSame : o.quantity = o.priceTicks.toUInt64 → o.sequence = o.priceTicks.toUInt64 →
      o.tif = .goodTillCancel → RowCut o (rowToPrice o)
  | price : RowCut o (rowToPrice o ++ [44])
  | quantitySame : o.sequence = o.quantity → o.tif = .goodTillCancel → RowCut o (rowToQuantity o)
  | quantity : RowCut o (rowToQuantity o ++ [44])
  | sequence : o.tif = .goodTillCancel → RowCut o (rowToSequence o)
  | whole : RowCut o (row o)

theorem append_comma_initial {a b : Bytes} (c : UInt8) {t : Bytes} (h : t <+: b) :
    a ++ c :: t <+: a ++ c :: b :=
  (List.prefix_append_right_inj _).mpr (List.cons_prefix_cons.mpr ⟨rfl, h⟩)

theorem RowCut.initial {o : Order} {t : Bytes} (h : RowCut o t) : t <+: row o := by
  have hsequence : rowToSequence o <+: row o := by
    rw [row_eq_sequence]
    exact List.prefix_append _ _
  have hquantity : rowToQuantity o ++ [44] <+: row o :=
    (append_comma_initial 44 List.nil_prefix).trans hsequence
  have hprice : rowToPrice o ++ [44] <+: row o :=
    (append_comma_initial 44 List.nil_prefix).trans ((List.prefix_append _ _).trans hquantity)
  have hto : rowToPrice o <+: row o := (List.prefix_append _ _).trans hprice
  have hside : rowToSide o <+: row o := (List.prefix_append _ _).trans hto
  have hsymbol : print o.id.toNat ++ 44 :: o.symbol <+: row o :=
    (append_comma_initial 44 (List.prefix_append _ _)).trans hside
  cases h with
  | id _ => exact (List.prefix_append _ _).trans hsymbol
  | idSame _ => exact (List.prefix_append _ _).trans hsymbol
  | symbol _ ht => exact (append_comma_initial 44 ht).trans hsymbol
  | symbolSame _ => exact hsymbol
  | side => exact hside
  | sideComma => exact (append_comma_initial 44 List.nil_prefix).trans hto
  | minus hneg =>
    refine (append_comma_initial 44 (t := [45]) ?_).trans hto
    rw [printInt_eq, if_pos hneg]
    exact List.cons_prefix_cons.mpr ⟨rfl, List.nil_prefix⟩
  | priceSame _ _ _ => exact hto
  | price => exact hprice
  | quantitySame _ _ => exact (List.prefix_append _ _).trans hquantity
  | quantity => exact hquantity
  | sequence _ => exact hsequence
  | whole => exact List.prefix_rfl

theorem RowCut.ne_nil {o : Order} {t : Bytes} (h : RowCut o t) : t ≠ [] := by
  cases h <;> simp [rowToSide, rowToPrice, rowToQuantity, rowToSequence, row_eq, print_ne_nil]

/-! ## what the reader makes of them -/

/-- the row after its last field was read -/
def ended (field : Bytes) : IStream := { rest := [], eof := true, fail := field.isEmpty }

-- the field before them is the last one of the row
section
variable (o : Order) {text u : Bytes} (hu : 44 ∉ u) (ht : Numeric u)
include hu ht

theorem fromPrice_last {z : Int64} {n : UInt64} (hz : stoll u = .ok z) (hn : stoull u = .ok n) :
    fromPrice o text { rest := u }
      = .ok { o with priceTicks := z, quantity := n, sequence := n, tif := .goodTillCancel } := by
  unfold fromPrice
  rw [getline_last hu]
  dsimp only
  rw [hz]
  exact fromQuantity_end { o with priceTicks := z } (s := ended u) rfl ht hn

theorem fromQuantity_last {n : UInt64} (hn : stoull u = .ok n) :
    fromQuantity o text { rest := u }
      = .ok { o with quantity := n, sequence := n, tif := .goodTillCancel } := by
  unfold fromQuantity
  rw [getline_last hu]
  dsimp only
  rw [hn]
  exact fromSequence_end { o with quantity := n } (s := ended u) rfl ht hn

theorem fromSequence_last {n : UInt64} (hn : stoull u = .ok n) :
    fromSequence o text { rest := u } = .ok { o with sequence := n, tif := .goodTillCancel } := by
  unfold fromSequence
  rw [getline_last hu]
  dsimp only
  rw [hn]
  exact fromTif_end { o with sequence := n } (s := ended u) rfl ht

end

/-- a row that ends in its id, or behind it -/
theorem parseRow_digits {t : Bytes} (hne : t ≠ []) (hd : ∀ c ∈ t, isDigit c = true)
    (hlt : value t < 2^64) :
    parseRow t = fromSide { id := .ofNat (value t) } t { ended t with fail := true } := by
  have hcomma : 44 ∉ t := fun hmem => absurd (hd 44 hmem) (by decide)
  unfold parseRow
  rw [getline_last hcomma]
  dsimp only
  rw [stoull_digits hne hd hlt]
  rfl

/-- a row that ends in its symbol, or behind it -/
theorem parseRow_symbolEnd (id : UInt64) {t : Bytes} (ht : 44 ∉ t) :
    parseRow (print id.toNat ++ 44 :: t)
      = fromSide { id := id, symbol := t } (print id.toNat) (ended t) := by
  unfold parseRow
  rw [getline_line ((notMem_fields (Or.inl rfl) { : Order }).1 _)]
  dsimp only
  rw [stoull_print, getline_last ht]
  rfl

/-- the id is read once more as all the numbers -/
theorem fromSide_id (id : UInt64) (symbol : Bytes) {s : IStream} (hs : s.eof = true)
    (hlt : id.toNat < 2^63) :
    fromSide { id := id, symbol := symbol } (print id.toNat) s = .ok (idOnly id symbol) := by
  have hz : stoll (print id.toNat) = .ok (.ofInt id.toNat) := by
    rw [stoll_digits (print_ne_nil _) (fun _ => isDigit_of_mem_print) (by rw [value_print]; exact hlt),
      value_print]
  exact fromSide_end _ hs (Numeric.of_print List.prefix_rfl (print_ne_nil _)) hz (stoull_print id)

/-- it is too large for a price -/
theorem fromSide_large (id : UInt64) (symbol : Bytes) {s : IStream} (hs : s.eof = true)
    (hle : 2^63 ≤ id.toNat) :
    fromSide { id := id, symbol := symbol } (print id.toNat) s = .error (.threw .outOfRange) := by
  refine fromSide_threw _ hs (Numeric.of_print List.prefix_rfl (print_ne_nil _)) ?_
  exact stoll_large (print_ne_nil _) (fun _ => isDigit_of_mem_print) (by rw [value_print]; exact hle)

theorem parseRow_id (id : UInt64) :
    parseRow (print id.toNat)
      = fromSide { id := id } (print id.toNat) { ended (print id.toNat) with fail := true } := by
  have hlt : value (print id.toNat) < 2^64 := by
    rw [value_print]
    exact id.toNat_lt
  rw [parseRow_digits (print_ne_nil _) (fun _ => isDigit_of_mem_print) hlt, value_print, UInt64.ofNat_toNat]

section
variable (o : Order) (h : 44 ∉ o.symbol)
include h

theorem parseRow_price (rest : Bytes) :
    parseRow (rowToSide o ++ 44 :: rest)
      = fromPrice { id := o.id, symbol := o.symbol, side := o.side } [sideChar o.side]
          { rest := rest } := by
  rw [rowToSide_append]
  exact parseRow_line h

theorem parseRow_quantity (rest : Bytes) :
    parseRow (rowToPrice o ++ 44 :: rest)
      = fromQuantity { id := o.id, symbol := o.symbol, side := o.side, priceTicks := o.priceTicks }
          (printInt o.priceTicks.toInt) { rest := rest } := by
  rw [rowToPrice_append, parseRow_price o h, fromPrice_line]

theorem parseRow_sequence (rest : Bytes) :
    parseRow (rowToQuantity o ++ 44 :: rest)
      = fromSequence { o with sequence := 0, tif := .goodTillCancel } (print o.quantity.toNat)
          { rest := rest } := by
  rw [rowToQuantity_append, parseRow_quantity o h, fromQuantity_line]

theorem parseRow_tif (rest : Bytes) :
    parseRow (rowToSequence o ++ 44 :: rest)
      = fromTif { o with tif := .goodTillCancel } (print o.sequence.toNat) { rest := rest } := by
  unfold rowToSequence
  rw [List.append_assoc, List.cons_append, parseRow_sequence o h, fromSequence_line]

/-- the side is read once more as the price -/
theorem parseRow_side : parseRow (rowToSide o) = .error (.threw .invalidArgument) := by
  obtain ⟨_, _, hside, _⟩ := notMem_fields (Or.inl rfl) o
  have hscan : stoll [sideChar o.side] = .error .invalidArgument := by
    cases o.side <;> rfl
  unfold rowToSide
  rw [parseRow_symbol h]
  unfold fromSide
  rw [getline_last hside]
  exact fromPrice_threw _ (s := ended [sideChar o.side]) rfl hscan

/-- the price is read once more as the quantity and the sequence number -/
theorem parseRow_toPrice :
    parseRow (rowToPrice o)
      = .ok { o with quantity := o.priceTicks.toUInt64, sequence := o.priceTicks.toUInt64,
                     tif := .goodTillCancel } := by
  obtain ⟨_, hprintInt, _⟩ := notMem_fields (Or.inl rfl) o
  unfold rowToPrice
  rw [parseRow_price o h, fromPrice_last _ hprintInt (.of_cut List.prefix_rfl (printInt_ne_nil _))
    (stoll_print _) (stoull_printInt _)]

/-- and the quantity as the sequence number -/
theorem parseRow_toQuantity :
    parseRow (rowToQuantity o) = .ok { o with sequence := o.quantity, tif := .goodTillCancel } := by
  obtain ⟨hprint, _⟩ := notMem_fields (Or.inl rfl) o
  unfold rowToQuantity
  rw [parseRow_quantity o h, fromQuantity_last _ (hprint _)
    (.of_print List.prefix_rfl (print_ne_nil _)) (stoull_print _)]

theorem parseRow_toSequence : parseRow (rowToSequence o) = .ok { o with tif := .goodTillCancel } := by
  obtain ⟨hprint, _⟩ := notMem_fields (Or.inl rfl) o
  unfold rowToSequence
  rw [parseRow_sequence o h, fromSequence_last _ (hprint _)
    (.of_print List.prefix_rfl (print_ne_nil _)) (stoull_print _)]

/-- a price without digits -/
theorem parseRow_noPrice {u : Bytes} (hu : 44 ∉ u) (hscan : stoll u = .error .invalidArgument) :
    parseRow (rowToSide o ++ 44 :: u) = .error (.threw .invalidArgument) := by
  rw [parseRow_price o h]
  unfold fromPrice
  rw [getline_last hu]
  dsimp only
  rw [hscan]
  rfl

end

/-! ## harmless cuts -/

/-- the cut row is rejected, or read as the order it was written for -/
def Harmless (o : Order) (t : Bytes) : Prop :=
  (∃ failure, parseRow t = .error (.threw failure)) ∨ parseRow t = .ok o

theorem Harmless.eq_of_ok {o o' : Order} {t : Bytes} (h : Harmless o t) (e : parseRow t = .ok o') :
    o' = o := by
  rcases h with ⟨failure, e'⟩ | e'
  · cases e.symm.trans e'
  · exact Except.ok.inj (e.symm.trans e')

theorem Harmless.not_emptyFront {o : Order} {t : Bytes} (h : Harmless o t)
    (e : parseRow t = .error .emptyFront) : False := by
  rcases h with ⟨failure, e'⟩ | e'
  · cases e.symm.trans e'
  · cases e.symm.trans e'

theorem Order.with_eq (o : Order) {quantity sequence : UInt64} {tif : TimeInForce} :
    ({ o with quantity := quantity, sequence := sequence, tif := tif } : Order) = o ↔
      o.quantity = quantity ∧ o.sequence = sequence ∧ o.tif = tif := by
  constructor
  · intro e
    rw [← e]
    exact ⟨rfl, rfl, rfl⟩
  · rintro ⟨rfl, rfl, rfl⟩
    rfl

/-- **these cuts do no harm** -/
theorem RowCut.harmless {o : Order} (h : 44 ∉ o.symbol) {t : Bytes} (hcut : RowCut o t) :
    Harmless o t := by
  cases hcut with
  | id hle =>
    rw [Harmless, parseRow_id, fromSide_large o.id [] rfl hle]
    exact Or.inl ⟨_, rfl⟩
  | idSame hsame =>
    rw [Harmless, parseRow_id]
    rcases Nat.lt_or_ge o.id.toNat (2^63) with hlt | hle
    · exact Or.inr ((fromSide_id o.id [] rfl hlt).trans (congrArg _ hsame.symm))
    · exact Or.inl ⟨_, fromSide_large o.id [] rfl hle⟩
  | @symbol t hle ht =>
    rw [Harmless, parseRow_symbolEnd o.id (fun hmem => h (ht.subset hmem)),
      fromSide_large o.id t rfl hle]
    exact Or.inl ⟨_, rfl⟩
  | symbolSame hsame =>
    rw [Harmless, parseRow_symbolEnd o.id h]
    rcases Nat.lt_or_ge o.id.toNat (2^63) with hlt | hle
    · exact Or.inr ((fromSide_id o.id o.symbol rfl hlt).trans (congrArg _ hsame.symm))
    · exact Or.inl ⟨_, fromSide_large o.id o.symbol rfl hle⟩
  | side => exact Or.inl ⟨_, parseRow_side o h⟩
  | sideComma => exact Or.inl ⟨_, parseRow_noPrice o h List.not_mem_nil rfl⟩
  | minus _ => exact Or.inl ⟨_, parseRow_noPrice o h (show 44 ∉ [45] by decide) rfl⟩
  | priceSame hquantity hsequence htif =>
    exact Or.inr ((parseRow_toPrice o h).trans (congrArg _ (o.with_eq.mpr ⟨hquantity, hsequence, htif⟩)))
  | price =>
    rw [Harmless, parseRow_quantity o h]
    exact Or.inl ⟨_, rfl⟩
  | quantitySame hsequence htif =>
    exact Or.inr ((parseRow_toQuantity o h).trans (congrArg _ (o.with_eq.mpr ⟨rfl, hsequence, htif⟩)))
  | quantity =>
    rw [Harmless, parseRow_sequence o h]
    exact Or.inl ⟨_, rfl⟩
  | sequence htif =>
    exact Or.inr ((parseRow_toSequence o h).trans (congrArg _ (o.with_eq.mpr ⟨rfl, rfl, htif⟩)))
  | whole => exact Or.inr (parseRow_row o h)

theorem initial_cases {a b t : Bytes} {c : UInt8} (h : t <+: a ++ c :: b) :
    t <+: a ∨ ∃ u, u <+: b ∧ a ++ c :: u = t := by
  rcases List.prefix_or_prefix_of_prefix h (List.prefix_append a (c :: b)) with ht | ⟨u, rfl⟩
  · exact Or.inl ht
  · rcases List.prefix_cons_iff.mp ((List.prefix_append_right_inj a).mp h) with rfl | ⟨u', rfl, hu⟩
    · rw [List.append_nil]
      exact Or.inl List.prefix_rfl
    · exact Or.inr ⟨u', hu, rfl⟩

theorem initial_singleton {t : Bytes} {c : UInt8} (h : t <+: [c]) : t = [] ∨ t = [c] := by
  rcases List.prefix_cons_iff.mp h with rfl | ⟨u, rfl, hu⟩
  · exact Or.inl rfl
  · rw [List.prefix_nil.mp hu]
    exact Or.inr rfl

section
variable {o : Order} {t : Bytes}

/-- a cut in the id: another id is read -/
theorem Harmless.id (ht : t <+: print o.id.toNat) (hne : t ≠ []) (h : Harmless o t) : RowCut o t := by
  by_cases hcut : t = print o.id.toNat
  · subst hcut
    rcases Nat.lt_or_ge o.id.toNat (2^63) with hlt | hle
    · exact .idSame (h.eq_of_ok ((parseRow_id o.id).trans (fromSide_id o.id [] rfl hlt))).symm
    · exact .id hle
  · obtain ⟨hle, hother⟩ := value_cut ht hne hcut
    have hid := o.id.toNat_lt
    have hd := isDigit_of_cut ht
    have hread := (parseRow_digits hne hd (by omega)).trans (fromSide_end _ rfl (.of_print ht hne)
      (stoll_digits hne hd (by omega)) (stoull_digits hne hd (by omega)))
    have e := congrArg (fun o => UInt64.toNat (Order.id o)) (h.eq_of_ok hread)
    dsimp only at e
    rw [UInt64.toNat_ofNat_of_lt' (show value t < 2^64 by omega)] at e
    exact absurd e hother

theorem Harmless.symbol (hsymbol : 44 ∉ o.symbol) (ht : t <+: o.symbol)
    (h : Harmless o (print o.id.toNat ++ 44 :: t)) : RowCut o (print o.id.toNat ++ 44 :: t) := by
  have hread := parseRow_symbolEnd o.id (fun hmem => hsymbol (ht.subset hmem))
  rcases Nat.lt_or_ge o.id.toNat (2^63) with hlt | hle
  · have e := h.eq_of_ok (hread.trans (fromSide_id o.id t rfl hlt))
    obtain rfl : t = o.symbol := congrArg Order.symbol e
    exact .symbolSame e.symm
  · exact .symbol hle ht

/-- without a side, `front` is called on an empty string -/
theorem Harmless.side (hsymbol : 44 ∉ o.symbol) (ht : t <+: [sideChar o.side])
    (h : Harmless o (print o.id.toNat ++ 44 :: (o.symbol ++ 44 :: t))) :
    RowCut o (print o.id.toNat ++ 44 :: (o.symbol ++ 44 :: t)) := by
  rcases initial_singleton ht with rfl | rfl
  · exact (h.not_emptyFront (parseRow_symbol hsymbol)).elim
  · exact .side

theorem Harmless.price (hsymbol : 44 ∉ o.symbol) (ht : t <+: printInt o.priceTicks.toInt)
    (h : Harmless o (rowToSide o ++ 44 :: t)) : RowCut o (rowToSide o ++ 44 :: t) := by
  by_cases hne : t = []
  · subst hne
    exact .sideComma
  by_cases hsign : t = [45]
  · subst hsign
    refine .minus (Int.lt_of_not_ge fun hnonneg => ?_)
    rw [printInt_eq, if_neg (Int.not_lt.mpr hnonneg)] at ht
    exact absurd (isDigit_of_cut ht 45 List.mem_cons_self) (by decide)
  by_cases hcut : t = printInt o.priceTicks.toInt
  · subst hcut
    obtain ⟨hquantity, hsequence, htif⟩ := o.with_eq.mp (h.eq_of_ok (parseRow_toPrice o hsymbol))
    exact .priceSame hquantity hsequence htif
  · obtain ⟨z, n, hz, hn, hother⟩ := stoll_cut ht hne hsign hcut
    have hcomma : 44 ∉ t := fun hmem => (notMem_fields (Or.inl rfl) o).2.1 (ht.subset hmem)
    have hread := (parseRow_price o hsymbol t).trans (fromPrice_last _ hcomma (.of_cut ht hne) hz hn)
    exact absurd (congrArg Order.priceTicks (h.eq_of_ok hread)) hother

/-- a number that was cut is read as another one, so it was not cut -/
theorem Harmless.eq_print {line : Bytes} {n : UInt64} {f : UInt64 → Order} (h : Harmless o line)
    (ht : t <+: print n.toNat) (hne : t ≠ [])
    (hread : 44 ∉ t → ∀ m, stoull t = .ok m → parseRow line = .ok (f m)) (hf : ∀ m, f m = o → m = n) :
    t = print n.toNat := by
  have hcomma : 44 ∉ t := fun hmem => (notMem_fields (Or.inl rfl) o).1 _ (ht.subset hmem)
  by_contra hcut
  obtain ⟨m, hm, hother⟩ := stoull_cut ht hne hcut
  exact hother (hf m (h.eq_of_ok (hread hcomma m hm)))

theorem Harmless.quantity (hsymbol : 44 ∉ o.symbol) (ht : t <+: print o.quantity.toNat)
    (h : Harmless o (rowToPrice o ++ 44 :: t)) : RowCut o (rowToPrice o ++ 44 :: t) := by
  by_cases hne : t = []
  · subst hne
    exact .price
  obtain rfl := h.eq_print ht hne
    (fun hcomma m hm => (parseRow_quantity o hsymbol t).trans
      (fromQuantity_last _ hcomma (.of_print ht hne) hm))
    fun m e => congrArg Order.quantity e
  obtain ⟨_, hsequence, htif⟩ := o.with_eq.mp (h.eq_of_ok (parseRow_toQuantity o hsymbol))
  exact .quantitySame hsequence htif

theorem Harmless.sequence (hsymbol : 44 ∉ o.symbol) (ht : t <+: print o.sequence.toNat)
    (h : Harmless o (rowToQuantity o ++ 44 :: t)) : RowCut o (rowToQuantity o ++ 44 :: t) := by
  by_cases hne : t = []
  · subst hne
    exact .quantity
  obtain rfl := h.eq_print ht hne
    (fun hcomma m hm => (parseRow_sequence o hsymbol t).trans
      (fromSequence_last _ hcomma (.of_print ht hne) hm))
    fun m e => congrArg Order.sequence e
  obtain ⟨_, _, htif⟩ := o.with_eq.mp (h.eq_of_ok (parseRow_toSequence o hsymbol))
  exact .sequence htif

theorem Harmless.tif (hsymbol : 44 ∉ o.symbol) (ht : t <+: [tifChar o.tif])
    (h : Harmless o (rowToSequence o ++ 44 :: t)) : RowCut o (rowToSequence o ++ 44 :: t) := by
  rcases initial_singleton ht with rfl | rfl
  · exact (h.not_emptyFront (parseRow_tif o hsymbol [])).elim
  · rw [← row_eq_sequence]
    exact .whole

/-- **There are no other ones.**  The cases are the fields of the row. -/
theorem harmless_iff (hsymbol : 44 ∉ o.symbol) (ht : t <+: row o) (hne : t ≠ []) :
    Harmless o t ↔ RowCut o t := by
  refine ⟨fun h => ?_, RowCut.harmless hsymbol⟩
  rw [row_eq_sequence] at ht
  rcases initial_cases ht with ht | ⟨u, hu, rfl⟩
  · rcases initial_cases ht with ht | ⟨u, hu, rfl⟩
    · rcases initial_cases ht with ht | ⟨u, hu, rfl⟩
      · rcases initial_cases ht with ht | ⟨u, hu, rfl⟩
        · rcases initial_cases ht with ht | ⟨u, hu, rfl⟩
          · exact h.id ht hne
          · rcases initial_cases hu with hu | ⟨v, hv, rfl⟩
            · exact h.symbol hsymbol hu
            · exact h.side hsymbol hv
        · exact h.price hsymbol hu
      · exact h.quantity hsymbol hu
    · exact h.sequence hsymbol hu
  · exact h.tif hsymbol hu

end

/-! ## files -/

/-- The cuts of a file: in the header, behind a row with its line feed, and in a row. -/
inductive Cut (orders : List Order) : Bytes → Prop
  | header {file : Bytes} : file <+: Matching.header → Cut orders file
  | rows {done : List Order} : done <+: orders → Cut orders (writeMockOrders done)
  | row {done : List Order} {o : Order} {t : Bytes} :
      done ++ [o] <+: orders → RowCut o t → Cut orders (writeMockOrders done ++ t)

theorem readMockOrders_header {file : Bytes} (h : file <+: header) : readMockOrders file = .ok [] := by
  have hfeed : 10 ∉ file := fun hmem => absurd (h.subset hmem) (by decide)
  rw [readMockOrders_eq]
  cases file with
  | nil => rfl
  | cons c file =>
    rw [lines_last hfeed (List.cons_ne_nil c file)]
    rfl

/-- the cut of the rows: behind a row, or in one -/
theorem rows_initial {orders : List Order} {t : Bytes}
    (h : t <+: orders.flatMap fun order => row order ++ ascii "\n") :
    (∃ done, done <+: orders ∧ t = done.flatMap fun order => row order ++ ascii "\n") ∨
      ∃ done o u, done ++ [o] <+: orders ∧ u <+: row o ∧ u ≠ [] ∧
        t = (done.flatMap fun order => row order ++ ascii "\n") ++ u := by
  induction orders generalizing t with
  | nil => exact Or.inl ⟨[], List.prefix_rfl, List.prefix_nil.mp h⟩
  | cons o orders ih =>
    have hsplit : t <+: row o ++ 10 :: orders.flatMap fun order => row order ++ ascii "\n" := by
      rw [List.flatMap_cons, List.append_assoc] at h
      exact h
    rcases initial_cases hsplit with ht | ⟨u, hu, rfl⟩
    · by_cases hne : t = []
      · exact Or.inl ⟨[], List.nil_prefix, hne⟩
      · exact Or.inr ⟨[], o, t, List.prefix_append [o] orders, ht, hne, rfl⟩
    · have hcons (done : List Order) :
          row o ++ 10 :: (done.flatMap fun order => row order ++ ascii "\n")
            = (o :: done).flatMap fun order => row order ++ ascii "\n" := by
        rw [List.flatMap_cons, List.append_assoc]
        rfl
      rcases ih hu with ⟨done, hdone, rfl⟩ | ⟨done, o', u', hdone, hu', hne, rfl⟩
      · exact Or.inl ⟨o :: done, List.cons_prefix_cons.mpr ⟨rfl, hdone⟩, hcons done⟩
      · refine Or.inr ⟨o :: done, o', u', List.cons_prefix_cons.mpr ⟨rfl, hdone⟩, hu', hne, ?_⟩
        rw [← hcons, List.append_assoc, List.cons_append]

theorem writeMockOrders_initial {done orders : List Order} (h : done <+: orders) :
    writeMockOrders done <+: writeMockOrders orders := by
  obtain ⟨rest, rfl⟩ := h
  unfold writeMockOrders
  rw [List.flatMap_append, ← List.append_assoc]
  exact List.prefix_append _ _

theorem Cut.initial {orders : List Order} {file : Bytes} (h : Cut orders file) :
    file <+: writeMockOrders orders := by
  cases h with
  | header hheader =>
    unfold writeMockOrders
    rw [List.append_assoc]
    exact hheader.trans (List.prefix_append _ _)
  | rows hdone => exact writeMockOrders_initial hdone
  | @row done o t hdone ht =>
    refine List.IsPrefix.trans ?_ (writeMockOrders_initial hdone)
    unfold writeMockOrders
    rw [List.flatMap_append, ← List.append_assoc, List.prefix_append_right_inj, List.flatMap_singleton]
    exact ht.initial.trans (List.prefix_append _ _)

/-- the places of a cut -/
theorem file_initial {orders : List Order} {file : Bytes} (h : file <+: writeMockOrders orders) :
    file <+: header ∨ (∃ done, done <+: orders ∧ file = writeMockOrders done) ∨
      ∃ done o t, done ++ [o] <+: orders ∧ t <+: row o ∧ t ≠ [] ∧ file = writeMockOrders done ++ t := by
  unfold writeMockOrders at h ⊢
  rw [List.append_assoc] at h
  rcases initial_cases h with h | ⟨u, hu, rfl⟩
  · exact Or.inl h
  · rcases rows_initial hu with ⟨done, hdone, rfl⟩ | ⟨done, o, t, hdone, ht, hne, rfl⟩
    · refine Or.inr (Or.inl ⟨done, hdone, ?_⟩)
      rw [List.append_assoc]
      rfl
    · refine Or.inr (Or.inr ⟨done, o, t, hdone, ht, hne, ?_⟩)
      rw [List.append_assoc, List.append_assoc]
      rfl

/-- a file that was cut in a row is read as this row is -/
theorem readMockOrders_row {orders done : List Order} {o : Order} {t : Bytes}
    (h : ∀ o ∈ orders, 44 ∉ o.symbol ∧ 10 ∉ o.symbol) (hdone : done ++ [o] <+: orders)
    (ht : t <+: row o) (hne : t ≠ []) :
    ((∃ failure, readMockOrders (writeMockOrders done ++ t) = .error (.threw failure)) ∨
        ∃ read, readMockOrders (writeMockOrders done ++ t) = .ok read ∧ read <+: orders) ↔
      Harmless o t := by
  have hsub := fun o ho => h o (((List.prefix_append _ _).trans hdone).subset ho)
  have hfeed := (h o (hdone.subset (List.mem_append_right _ List.mem_cons_self))).2
  have hlast : 10 ∉ t := fun hmem => feed_notMem_row o hfeed (ht.subset hmem)
  have hread : readMockOrders (writeMockOrders done ++ t) = pushRow done t := by
    rw [readMockOrders_append hsub, lines_last hlast hne, List.foldlM_cons]
    cases pushRow done t <;> rfl
  rw [hread]
  unfold pushRow Harmless
  cases e : parseRow t with
  | error failure =>
    constructor
    · rintro (⟨f, hf⟩ | ⟨_, hf, _⟩)
      · cases hf
        exact Or.inl ⟨f, rfl⟩
      · cases hf
    · rintro (⟨f, hf⟩ | hf)
      · cases hf
        exact Or.inl ⟨f, rfl⟩
      · cases hf
  | ok o' =>
    constructor
    · rintro (⟨_, hf⟩ | ⟨_, hf, hsame⟩)
      · cases hf
      · cases hf
        have hlen : (done ++ [o']).length = (done ++ [o]).length := by
          rw [List.length_append, List.length_append]
          rfl
        have e := (List.prefix_of_prefix_length_le hsame hdone hlen.le).eq_of_length hlen
        exact Or.inr (congrArg _ (List.singleton_inj.mp (List.append_cancel_left e)))
    · rintro (⟨_, hf⟩ | hf)
      · cases hf
      · cases hf
        exact Or.inr ⟨_, rfl, hdone⟩

/-- **Truncated files.**  A cut file is rejected, or read up to the cut, exactly if it was cut at one of
these places. -/
theorem truncated_orders (orders : List Order) (h : ∀ o ∈ orders, 44 ∉ o.symbol ∧ 10 ∉ o.symbol)
    (file : Bytes) :
    file <+: writeMockOrders orders ∧
        ((∃ failure, readMockOrders file = .error (.threw failure)) ∨
          ∃ read, readMockOrders file = .ok read ∧ read <+: orders) ↔
      Cut orders file := by
  have hsymbol {done : List Order} {o : Order} (hdone : done ++ [o] <+: orders) : 44 ∉ o.symbol :=
    (h o (hdone.subset (List.mem_append_right _ List.mem_cons_self))).1
  constructor
  · rintro ⟨hfile, hread⟩
    rcases file_initial hfile with hheader | ⟨done, hdone, rfl⟩ | ⟨done, o, t, hdone, ht, hne, rfl⟩
    · exact .header hheader
    · exact .rows hdone
    · have hharmless := (readMockOrders_row h hdone ht hne).mp hread
      exact .row hdone ((harmless_iff (hsymbol hdone) ht hne).mp hharmless)
  · intro hcut
    refine ⟨hcut.initial, ?_⟩
    cases hcut with
    | header hheader => exact Or.inr ⟨[], readMockOrders_header hheader, List.nil_prefix⟩
    | @rows done hdone =>
      exact Or.inr ⟨done, readMockOrders_written fun o ho => h o (hdone.subset ho), hdone⟩
    | @row done o t hdone ht =>
      exact (readMockOrders_row h hdone ht.initial ht.ne_nil).mpr (ht.harmless (hsymbol hdone))

/-- `12,AAA,B,100,5,1,G` -/
def cutOrder : Order :=
  { id := 12, symbol := ascii "AAA", side := .buy, priceTicks := 100, quantity := 5, sequence := 1 }

/-- the second row is cut behind the comma that follows its price -/
theorem truncated_orders_price :
    Cut [cutOrder, cutOrder] (writeMockOrders [cutOrder] ++ ascii "12,AAA,B,100,") ∧
      ((∃ failure, readMockOrders (writeMockOrders [cutOrder] ++ ascii "12,AAA,B,100,")
          = .error (.threw failure)) ∨
        ∃ read, readMockOrders (writeMockOrders [cutOrder] ++ ascii "12,AAA,B,100,") = .ok read ∧
          read <+: [cutOrder, cutOrder]) := by
  have hcut : Cut [cutOrder, cutOrder] (writeMockOrders [cutOrder] ++ ascii "12,AAA,B,100,") :=
    Cut.row List.prefix_rfl (RowCut.price (o := cutOrder))
  exact ⟨hcut, ((truncated_orders _ (by decide) _).mpr hcut).2⟩

/-- what is read of that row if it is cut behind its id -/
def misread : Order := { id := 12, side := .sell, priceTicks := 12, quantity := 12, sequence := 12 }

/-- **A cut behind an id.**  The rest of the row is lost, and an order is read that was never written. -/
theorem cut_behind_id :
    (∀ o ∈ [cutOrder], 44 ∉ o.symbol ∧ 10 ∉ o.symbol) ∧
      header ++ ascii "\n12" <+: writeMockOrders [cutOrder] ∧
      readMockOrders (header ++ ascii "\n12") = .ok [misread] ∧ ¬ [misread] <+: [cutOrder] := by
  refine ⟨by decide, ⟨ascii ",AAA,B,100,5,1,G\n", by decide⟩, ?_, by decide⟩
  have hread := readMockOrders_append (show ∀ o ∈ ([] : List Order), _ from nofun) (print 12)
  rw [lines_last (by decide) (print_ne_nil 12), List.foldlM_cons] at hread
  unfold pushRow at hread
  rw [show parseRow (print 12) = .ok misread from
    (parseRow_id 12).trans (fromSide_id 12 [] rfl (by decide))] at hread
  exact hread

end Matching
