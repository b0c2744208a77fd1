import SystemsCourse.Lib.Decimal

/-!
# Hexadecimal text

Model of `parse_hex_bytes` in `capstone/reference/src/packet.cpp`.

* `Renders bytes text`   the text is the bytes, two digits each, with separators anywhere;
* `hexLoop_digits`       the loop on the digits of a rendering;
* `digits_of_hexLoop`    the loop ends between two bytes only on such digits;
* `hex_decoding`         both directions.
-/

set_option linter.unusedVariables false

namespace NetForge
open Wire

/-! ## the function -/

/-- white space, `':'` and `'-'` -/
def isHexSeparator (c : UInt8) : Bool := isSpace c || c == 58 || c == 45

/-- the variable `value`, if it is not negative -/
def hexValue (c : UInt8) : Option UInt8 :=
  if 65 ≤ c ∧ c ≤ 70 then some (c - 65 + 10)
  else if 97 ≤ c ∧ c ≤ 102 then some (c - 97 + 10)
  else if 48 ≤ c ∧ c ≤ 57 then some (c - 48)
  else none

/-- the body of the loop, on `bytes` and `high_nibble`; it has no result where the function returns `{}` -/
def hexStep (x : Bytes × Option UInt8) (c : UInt8) : Option (Bytes × Option UInt8) :=
  if isHexSeparator c then some x
  else
    match hexValue c, x.2 with
    | none, _ => none
    | some value, none => some (x.1, some value)
    | some value, some high => some (x.1 ++ [high <<< 4 ||| value], none)

def parseHexBytes (text : Bytes) : Bytes :=
  match text.foldlM hexStep ([], none) with
  | some (bytes, none) => bytes
  | _ => []

/-! ## renderings -/

/-- the digit of a number below 16, in lower or upper case -/
def HexDigit (n : ℕ) (c : UInt8) : Prop :=
  (ascii "0123456789abcdef")[n]? = some c ∨ (ascii "0123456789ABCDEF")[n]? = some c

/-- two digits for each byte -/
inductive Digits : Bytes → Bytes → Prop
  | nil : Digits [] []
  | byte {b c d : UInt8} {bytes text : Bytes} : HexDigit (b.toNat / 16) c → HexDigit (b.toNat % 16) d →
      Digits bytes text → Digits (b :: bytes) (c :: d :: text)

/-- a text which, without its separators, has two digits for each byte -/
def Renders (bytes text : Bytes) : Prop := Digits bytes (text.filter fun c => !isHexSeparator c)

instance (n : ℕ) (c : UInt8) : Decidable (HexDigit n c) := inferInstanceAs (Decidable (_ ∨ _))

theorem value_of_hexDigit {n : ℕ} {c : UInt8} (h : HexDigit n c) :
    isHexSeparator c = false ∧ hexValue c = some (UInt8.ofNat n) := by
  have hdigits : ∀ n : Fin 16,
      (∀ c ∈ (ascii "0123456789abcdef")[n.val]?,
        isHexSeparator c = false ∧ hexValue c = some (UInt8.ofNat n)) ∧
      ∀ c ∈ (ascii "0123456789ABCDEF")[n.val]?,
        isHexSeparator c = false ∧ hexValue c = some (UInt8.ofNat n) := by
    decide +kernel
  rcases h with h | h
  · obtain ⟨hn, _⟩ := List.getElem?_eq_some_iff.mp h
    exact (hdigits ⟨n, hn⟩).1 c h
  · obtain ⟨hn, _⟩ := List.getElem?_eq_some_iff.mp h
    exact (hdigits ⟨n, hn⟩).2 c h

theorem hexDigit_of_value : ∀ c : UInt8, ∀ v ∈ hexValue c, v.toNat < 16 ∧ HexDigit v.toNat c :=
  forall_byte (by decide +kernel)

/-- the two digits of a byte make the byte -/
theorem nibbles_eq : ∀ b : UInt8,
    UInt8.ofNat (b.toNat / 16) <<< 4 ||| UInt8.ofNat (b.toNat % 16) = b :=
  forall_byte (by decide +kernel)

theorem toNat_nibbles : ∀ high low : Fin 16,
    (UInt8.ofNat high <<< 4 ||| UInt8.ofNat low).toNat / 16 = high ∧
      (UInt8.ofNat high <<< 4 ||| UInt8.ofNat low).toNat % 16 = low := by
  decide +kernel

/-! ## the loop -/

theorem hexStep_separator {c : UInt8} (h : isHexSeparator c = true) (x : Bytes × Option UInt8) :
    hexStep x c = some x := by
  unfold hexStep
  rw [if_pos h]

theorem hexStep_digit {n : ℕ} {c : UInt8} (h : HexDigit n c) (bytes : Bytes) :
    hexStep (bytes, none) c = some (bytes, some (UInt8.ofNat n)) ∧
      ∀ high, hexStep (bytes, some high) c = some (bytes ++ [high <<< 4 ||| UInt8.ofNat n], none) := by
  obtain ⟨hsep, hvalue⟩ := value_of_hexDigit h
  unfold hexStep
  rw [if_neg (Bool.eq_false_iff.mp hsep), hvalue]
  refine ⟨rfl, fun high => ?_⟩
  rw [if_neg (Bool.eq_false_iff.mp hsep)]

/-- a character which the loop does not skip -/
theorem hexDigit_of_hexStep {c : UInt8} {x y : Bytes × Option UInt8} (hsep : isHexSeparator c = false)
    (h : hexStep x c = some y) : ∃ n : Fin 16, HexDigit n c := by
  cases hvalue : hexValue c with
  | none =>
    unfold hexStep at h
    rw [if_neg (Bool.eq_false_iff.mp hsep), hvalue] at h
    cases h
  | some v =>
    obtain ⟨hlt, hdigit⟩ := hexDigit_of_value c v hvalue
    exact ⟨⟨v.toNat, hlt⟩, hdigit⟩

/-- separators do not change the state -/
theorem hexLoop_filter (text : Bytes) (x : Bytes × Option UInt8) :
    text.foldlM hexStep x = (text.filter fun c => !isHexSeparator c).foldlM hexStep x := by
  induction text generalizing x with
  | nil => rfl
  | cons c text ih =>
    cases h : isHexSeparator c with
    | true =>
      rw [List.filter_cons_of_neg (by rw [h]; decide), List.foldlM_cons, hexStep_separator h]
      exact ih x
    | false =>
      rw [List.filter_cons_of_pos (by rw [h]; rfl), List.foldlM_cons, List.foldlM_cons]
      congr 1
      funext y
      exact ih y

/-- the loop reads the digits of the bytes -/
theorem hexLoop_digits {bytes text : Bytes} (h : Digits bytes text) (done : Bytes) :
    text.foldlM hexStep (done, none) = some (done ++ bytes, none) := by
  induction h generalizing done with
  | nil => rw [List.append_nil]; rfl
  | @byte b c d bytes text hc hd _ ih =>
    have hhigh := (hexStep_digit hc done).1
    have hlow := (hexStep_digit hd done).2 (UInt8.ofNat (b.toNat / 16))
    rw [nibbles_eq] at hlow
    rw [List.foldlM_cons, hhigh]
    show List.foldlM hexStep (done, some _) (d :: text) = _
    rw [List.foldlM_cons, hlow]
    show List.foldlM hexStep (done ++ [b], none) text = _
    rw [ih, List.append_assoc, List.singleton_append]

/-- The loop ends between two bytes on the digits of bytes only.  The text is taken two characters at a
time. -/
theorem digits_of_hexLoop : ∀ {text : Bytes} {done bytes : Bytes},
    (∀ c ∈ text, isHexSeparator c = false) → text.foldlM hexStep (done, none) = some (bytes, none) →
    ∃ new, bytes = done ++ new ∧ Digits new text
  | [], done, bytes, _, h => by
    cases h
    exact ⟨[], (List.append_nil _).symm, .nil⟩
  | [c], done, bytes, hsep, h => by
    rw [List.foldlM_cons] at h
    obtain ⟨y, hy, h⟩ := Option.bind_eq_some_iff.mp h
    obtain ⟨n, hc⟩ := hexDigit_of_hexStep (hsep c List.mem_cons_self) hy
    rw [(hexStep_digit hc done).1] at hy
    cases hy
    cases h
  | c :: d :: text, done, bytes, hsep, h => by
    rw [List.foldlM_cons] at h
    obtain ⟨y, hy, h⟩ := Option.bind_eq_some_iff.mp h
    obtain ⟨high, hc⟩ := hexDigit_of_hexStep (hsep c List.mem_cons_self) hy
    rw [(hexStep_digit hc done).1] at hy
    cases hy
    rw [List.foldlM_cons] at h
    obtain ⟨y, hy, h⟩ := Option.bind_eq_some_iff.mp h
    obtain ⟨low, hd⟩ := hexDigit_of_hexStep (hsep d (List.mem_cons_of_mem _ List.mem_cons_self)) hy
    rw [(hexStep_digit hd done).2] at hy
    cases hy
    obtain ⟨new, hnew, hdigits⟩ := digits_of_hexLoop
      (fun c hc => hsep c (List.mem_cons_of_mem _ (List.mem_cons_of_mem _ hc))) h
    obtain ⟨e1, e2⟩ := toNat_nibbles high low
    refine ⟨(UInt8.ofNat high <<< 4 ||| UInt8.ofNat low) :: new, ?_, .byte ?_ ?_ hdigits⟩
    · rw [hnew, List.append_assoc, List.singleton_append]
    · rw [e1]
      exact hc
    · rw [e2]
      exact hd

/-! ## decoding -/

theorem parseHexBytes_of_renders {bytes text : Bytes} (h : Renders bytes text) :
    parseHexBytes text = bytes := by
  unfold parseHexBytes
  rw [hexLoop_filter, hexLoop_digits h []]
  rfl

theorem renders_of_parseHexBytes {text : Bytes} (h : parseHexBytes text ≠ []) :
    Renders (parseHexBytes text) text := by
  unfold parseHexBytes at h ⊢
  rw [hexLoop_filter] at h ⊢
  split at h
  · rename_i bytes heq
    have hsep : ∀ c ∈ text.filter (fun c => !isHexSeparator c), isHexSeparator c = false := by
      intro c hc
      simpa using (List.mem_filter.mp hc).2
    obtain ⟨new, rfl, hdigits⟩ := digits_of_hexLoop hsep heq
    exact hdigits
  · exact absurd rfl h

theorem Digits.length {bytes text : Bytes} (h : Digits bytes text) : text.length = 2 * bytes.length := by
  induction h with
  | nil => rfl
  | byte _ _ _ ih =>
    rw [List.length_cons, List.length_cons, List.length_cons, ih]
    omega

theorem Digits.mem {bytes text : Bytes} (h : Digits bytes text) {c : UInt8} (hc : c ∈ text) :
    ∃ n, HexDigit n c := by
  induction h with
  | nil => cases hc
  | byte h1 h2 _ ih =>
    rcases List.mem_cons.mp hc with rfl | hc
    · exact ⟨_, h1⟩
    · rcases List.mem_cons.mp hc with rfl | hc
      · exact ⟨_, h2⟩
      · exact ih hc

/-- **Hex decoding.**  A rendering of bytes is decoded as these bytes; a text is decoded as bytes only if
it is a rendering of them.  So a character that is neither a separator nor a digit, or an odd number of
digits, gives nothing. -/
theorem hex_decoding (text : Bytes) :
    (∀ bytes, Renders bytes text → parseHexBytes text = bytes) ∧
      (parseHexBytes text ≠ [] → Renders (parseHexBytes text) text) ∧
      (∀ c ∈ text, isHexSeparator c = false → (∀ n, ¬ HexDigit n c) → parseHexBytes text = []) ∧
      ((text.filter fun c => !isHexSeparator c).length % 2 = 1 → parseHexBytes text = []) := by
  refine ⟨fun bytes => parseHexBytes_of_renders, renders_of_parseHexBytes, ?_, ?_⟩
  · intro c hc hsep hdigit
    by_contra hne
    obtain ⟨n, hn⟩ := (renders_of_parseHexBytes hne).mem
      (List.mem_filter.mpr ⟨hc, by rw [hsep]; rfl⟩)
    exact hdigit n hn
  · intro hodd
    by_contra hne
    have hlen := (renders_of_parseHexBytes hne).length
    omega

/-- a separator between the two digits of a byte, and both cases -/
theorem hex_decoding_mixed :
    Renders [171, 12] (ascii " a:B-0\nC") ∧ parseHexBytes (ascii " a:B-0\nC") = [171, 12] := by
  have h : Renders [171, 12] (ascii " a:B-0\nC") :=
    .byte (Or.inl rfl) (Or.inr rfl) (.byte (Or.inl rfl) (Or.inr rfl) .nil)
  exact ⟨h, (hex_decoding _).1 _ h⟩

end NetForge
