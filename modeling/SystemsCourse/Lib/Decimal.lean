import Mathlib.Algebra.Ring.Int.Defs
import Mathlib.Algebra.Ring.Nat
import Mathlib.Data.List.Basic
import Mathlib.Data.List.TakeWhile
import SystemsCourse.Lib.Frames

/-!
# Decimal numbers

Numbers as they are printed, and `strtoull`, `strtoll` as `std::stoull`, `std::stoll` use them in the C
locale: white space, a sign, and the longest run of digits.

* `scan`                      the sign and the magnitude, if there are digits;
* `stoull`, `stoll`           the number, or the exception;
* `stoull_print`, `stoll_print`  what was printed is read back, over the whole range;
* `stoull_cut`, `stoll_cut`   a number that was cut is read as another one.
-/

namespace Decimal
open Wire

def isDigit (c : UInt8) : Bool := 48 ≤ c && c ≤ 57

def value (digits : Bytes) : ℕ := digits.foldl (fun n c => 10 * n + (c.toNat - 48)) 0

/-- the sign, and what follows it -/
def sign : Bytes → Bool × Bytes
  | [] => (false, [])
  | c :: text => if c = 45 then (true, text) else if c = 43 then (false, text) else (false, c :: text)

/-- whether the number is negative, and its magnitude -/
def scan (text : Bytes) : Option (Bool × ℕ) :=
  let (negative, text) := sign (text.dropWhile isSpace)
  let digits := text.takeWhile isDigit
  if digits = [] then none else some (negative, value digits)

inductive Failure where
  | invalidArgument
  | outOfRange
deriving DecidableEq

/-- `std::stoull`; a negative number is negated in the unsigned type -/
def stoull (text : Bytes) : Except Failure UInt64 :=
  match scan text with
  | none => .error .invalidArgument
  | some (negative, n) =>
    if 2^64 ≤ n then .error .outOfRange
    else .ok (if negative then -UInt64.ofNat n else UInt64.ofNat n)

/-- `std::strtoull`, which gives 0 without digits and the largest number out of range -/
def strtoull (text : Bytes) : UInt64 :=
  match scan text with
  | none => 0
  | some (negative, n) =>
    if 2^64 ≤ n then -1 else if negative then -UInt64.ofNat n else UInt64.ofNat n

/-- `std::from_chars` for `std::uint64_t`: the number, and what follows its digits -/
def fromChars (text : Bytes) : Except Failure (UInt64 × Bytes) :=
  let digits := text.takeWhile isDigit
  if digits = [] then .error .invalidArgument
  else if 2^64 ≤ value digits then .error .outOfRange
  else .ok (UInt64.ofNat (value digits), text.dropWhile isDigit)

/-- `std::stoll` -/
def stoll (text : Bytes) : Except Failure Int64 :=
  match scan text with
  | none => .error .invalidArgument
  | some (negative, n) =>
    let signed : ℤ := if negative then -n else n
    if signed < -2^63 ∨ 2^63 ≤ signed then .error .outOfRange else .ok (Int64.ofInt signed)

/-! ## printed numbers -/

/-- the digits of a number -/
def print (n : ℕ) : Bytes := ascii (toString n)

/-- a signed number -/
def printInt (z : ℤ) : Bytes := ascii (toString z)

theorem print_eq (n : ℕ) : print n = (Nat.toDigits 10 n).map fun c => UInt8.ofNat c.toNat := by
  unfold print ascii
  rw [Nat.toString_eq_repr, Nat.repr, String.toList_ofList]

theorem toNat_digit {n : ℕ} {c : Char} (hc : c ∈ Nat.toDigits 10 n) :
    (UInt8.ofNat c.toNat).toNat = c.toNat ∧ 48 ≤ c.toNat ∧ c.toNat ≤ 57 := by
  have hd := Nat.isDigit_of_mem_toDigits (by omega) (Nat.le_refl 10) hc
  simp only [Char.isDigit, Bool.and_eq_true, decide_eq_true_eq] at hd
  have h1 : 48 ≤ c.toNat := hd.1
  have h2 : c.toNat ≤ 57 := hd.2
  rw [UInt8.toNat_ofNat']
  exact ⟨Nat.mod_eq_of_lt (by omega), h1, h2⟩

theorem print_ne_nil (n : ℕ) : print n ≠ [] := by
  rw [print_eq]
  intro h
  exact Nat.toDigits_ne_nil (List.map_eq_nil_iff.mp h)

theorem isDigit_of_mem_print {n : ℕ} {d : UInt8} (hd : d ∈ print n) : isDigit d = true := by
  rw [print_eq] at hd
  obtain ⟨c, hc, rfl⟩ := List.mem_map.mp hd
  obtain ⟨e, h1, h2⟩ := toNat_digit hc
  unfold isDigit
  rw [Bool.and_eq_true, decide_eq_true_eq, decide_eq_true_eq, UInt8.le_iff_toNat_le,
    UInt8.le_iff_toNat_le, e]
  exact ⟨h1, h2⟩

theorem value_print (n : ℕ) : value (print n) = n := by
  rw [print_eq, value, List.foldl_map]
  calc (Nat.toDigits 10 n).foldl (fun m c => 10 * m + ((UInt8.ofNat c.toNat).toNat - 48)) 0
      = (Nat.toDigits 10 n).foldl (fun m c => 10 * m + (c.toNat - '0'.toNat)) 0 := by
        refine List.foldl_ext _ _ _ fun m c hc => ?_
        rw [(toNat_digit hc).1]
        rfl
    _ = n := Nat.ofDigitChars_toDigits (by omega) (by omega)

theorem printInt_eq (z : ℤ) :
    printInt z = if z < 0 then 45 :: print z.natAbs else print z.natAbs := by
  cases z with
  | ofNat n => rfl
  | negSucc n =>
    rw [if_pos (Int.negSucc_lt_zero n)]
    show ascii ("-" ++ toString (n + 1)) = 45 :: ascii (toString (n + 1))
    unfold ascii
    rw [String.toList_append, List.map_append]
    rfl

theorem printInt_ne_nil (z : ℤ) : printInt z ≠ [] := by
  rw [printInt_eq]
  split_ifs
  · exact List.cons_ne_nil _ _
  · exact print_ne_nil _

/-! ## scanning -/

theorem isSpace_of_isDigit : ∀ c : UInt8, isDigit c = true → isSpace c = false ∧ c ≠ 45 ∧ c ≠ 43 :=
  forall_byte (by decide +kernel)

section
variable {digits : Bytes} (hne : digits ≠ []) (hd : ∀ c ∈ digits, isDigit c = true)
include hne hd

theorem scan_digits : scan digits = some (false, value digits) := by
  cases digits with
  | nil => exact absurd rfl hne
  | cons c cs =>
    obtain ⟨hspace, hminus, hplus⟩ := isSpace_of_isDigit c (hd c List.mem_cons_self)
    unfold scan
    rw [List.dropWhile_cons_of_neg (by rw [hspace]; exact Bool.false_ne_true), sign, if_neg hminus,
      if_neg hplus]
    dsimp only
    rw [List.takeWhile_eq_self_iff.mpr hd, if_neg hne]

theorem scan_minus : scan (45 :: digits) = some (true, value digits) := by
  unfold scan
  rw [List.dropWhile_cons_of_neg (by decide), sign, if_pos rfl]
  dsimp only
  rw [List.takeWhile_eq_self_iff.mpr hd, if_neg hne]

end

theorem scan_print (n : ℕ) : scan (print n) = some (false, n) := by
  rw [scan_digits (print_ne_nil n) fun _ => isDigit_of_mem_print, value_print]

theorem scan_printInt (z : ℤ) : scan (printInt z) = some (decide (z < 0), z.natAbs) := by
  rw [printInt_eq]
  split_ifs with hz
  · rw [scan_minus (print_ne_nil _) fun _ => isDigit_of_mem_print, value_print, decide_eq_true hz]
  · rw [scan_print, decide_eq_false hz]

/-- an unsigned number is read back -/
theorem stoull_print (n : UInt64) : stoull (print n.toNat) = .ok n := by
  unfold stoull
  rw [scan_print]
  dsimp only
  rw [if_neg (Nat.not_le_of_lt n.toNat_lt), if_neg Bool.false_ne_true, UInt64.ofNat_toNat]

/-- a signed number is read back -/
theorem stoll_print (n : Int64) : stoll (printInt n.toInt) = .ok n := by
  have hlo := n.le_toInt
  have hhi := n.toInt_lt
  have hsigned : (if decide (n.toInt < 0) then -(n.toInt.natAbs : ℤ) else n.toInt.natAbs) = n.toInt := by
    split_ifs with hz
    · have := of_decide_eq_true hz
      omega
    · have := of_decide_eq_false (Bool.eq_false_iff.mpr hz)
      omega
  unfold stoll
  rw [scan_printInt]
  dsimp only
  rw [hsigned, if_neg (by omega), Int64.ofInt_toInt]

/-! ## cut numbers -/

theorem le_foldl_digits (digits : Bytes) (n : ℕ) :
    n ≤ digits.foldl (fun n c => 10 * n + (c.toNat - 48)) n := by
  induction digits generalizing n with
  | nil => exact Nat.le_refl n
  | cons d digits ih =>
    rw [List.foldl_cons]
    exact Nat.le_trans (by omega) (ih _)

theorem value_append_cons (digits : Bytes) (d : UInt8) (rest : Bytes) :
    10 * value digits ≤ value (digits ++ d :: rest) := by
  unfold value
  rw [List.foldl_append, List.foldl_cons]
  exact (Nat.le_add_right ..).trans (le_foldl_digits rest _)

/-- a number that was cut is another one, of at most a tenth -/
theorem value_cut {n : ℕ} {t : Bytes} (ht : t <+: print n) (hne : t ≠ []) (hcut : t ≠ print n) :
    10 * value t ≤ n ∧ value t ≠ n := by
  obtain ⟨rest, e⟩ := ht
  cases rest with
  | nil => exact absurd ((List.append_nil t).symm.trans e) hcut
  | cons d rest =>
    have hle := value_append_cons t d rest
    rw [e, value_print] at hle
    refine ⟨hle, fun heq => ?_⟩
    -- only zero is a tenth of itself, and it has one digit
    obtain rfl : n = 0 := by omega
    have hlen : (t ++ d :: rest).length = 1 := by
      rw [e]
      decide
    have hpos := List.length_pos_of_ne_nil hne
    rw [List.length_append, List.length_cons] at hlen
    omega

section
variable {t : Bytes} (hne : t ≠ []) (hd : ∀ c ∈ t, isDigit c = true)
include hne hd

theorem stoull_digits (hlt : value t < 2^64) : stoull t = .ok (.ofNat (value t)) := by
  unfold stoull
  rw [scan_digits hne hd]
  dsimp only
  rw [if_neg (Nat.not_le_of_lt hlt), if_neg Bool.false_ne_true]

theorem stoull_minus (hlt : value t < 2^64) : stoull (45 :: t) = .ok (-.ofNat (value t)) := by
  unfold stoull
  rw [scan_minus hne hd]
  dsimp only
  rw [if_neg (Nat.not_le_of_lt hlt), if_pos rfl]

theorem stoll_digits (hlt : value t < 2^63) : stoll t = .ok (.ofInt (value t)) := by
  unfold stoll
  rw [scan_digits hne hd]
  dsimp only
  rw [if_neg Bool.false_ne_true, if_neg (by omega)]

theorem stoll_large (hle : 2^63 ≤ value t) : stoll t = .error .outOfRange := by
  unfold stoll
  rw [scan_digits hne hd]
  dsimp only
  rw [if_neg Bool.false_ne_true, if_pos (Or.inr (by omega))]

theorem stoll_minus (hle : value t ≤ 2^63) : stoll (45 :: t) = .ok (.ofInt (-value t)) := by
  unfold stoll
  rw [scan_minus hne hd]
  dsimp only
  rw [if_pos rfl, if_neg (by omega)]

end

/-- the digits of a cut number -/
theorem isDigit_of_cut {n : ℕ} {t : Bytes} (ht : t <+: print n) : ∀ c ∈ t, isDigit c = true :=
  fun _ hc => isDigit_of_mem_print (ht.subset hc)

/-- a cut unsigned number is read as another one -/
theorem stoull_cut {n : UInt64} {t : Bytes} (ht : t <+: print n.toNat) (hne : t ≠ [])
    (hcut : t ≠ print n.toNat) : ∃ m, stoull t = .ok m ∧ m ≠ n := by
  obtain ⟨hle, hother⟩ := value_cut ht hne hcut
  have hlt : value t < 2^64 := by
    have := n.toNat_lt
    omega
  refine ⟨_, stoull_digits hne (isDigit_of_cut ht) hlt, fun e => hother ?_⟩
  rw [← e, UInt64.toNat_ofNat_of_lt' hlt]

/-- and so is a cut signed number, also where it is read as an unsigned one -/
theorem stoll_cut {z : Int64} {t : Bytes} (ht : t <+: printInt z.toInt) (hne : t ≠ [])
    (hsign : t ≠ [45]) (hcut : t ≠ printInt z.toInt) :
    ∃ z' m, stoll t = .ok z' ∧ stoull t = .ok m ∧ z' ≠ z := by
  have hlo := z.le_toInt
  have hhi := z.toInt_lt
  rw [printInt_eq] at ht hcut
  split_ifs at ht hcut with hneg
  · cases t with
    | nil => exact absurd rfl hne
    | cons c t =>
      obtain ⟨rfl, htail⟩ := List.cons_prefix_cons.mp ht
      have hne' : t ≠ [] := fun e => hsign (by rw [e])
      obtain ⟨hle, hother⟩ := value_cut htail hne' fun e => hcut (by rw [e])
      refine ⟨_, _, stoll_minus hne' (isDigit_of_cut htail) (by omega),
        stoull_minus hne' (isDigit_of_cut htail) (by omega), fun e => hother ?_⟩
      have := congrArg Int64.toInt e
      rw [Int64.toInt_ofInt_of_le (by omega) (by omega)] at this
      omega
  · obtain ⟨hle, hother⟩ := value_cut ht hne hcut
    refine ⟨_, _, stoll_digits hne (isDigit_of_cut ht) (by omega),
      stoull_digits hne (isDigit_of_cut ht) (by omega), fun e => hother ?_⟩
    have := congrArg Int64.toInt e
    rw [Int64.toInt_ofInt_of_le (by omega) (by omega)] at this
    omega

/-- a signed number, read as an unsigned one -/
theorem stoull_printInt (z : Int64) : stoull (printInt z.toInt) = .ok z.toUInt64 := by
  have hlo := z.le_toInt
  have hhi := z.toInt_lt
  have hdigits : ∀ c ∈ print z.toInt.natAbs, isDigit c = true := fun _ => isDigit_of_mem_print
  have hlt : value (print z.toInt.natAbs) < 2^64 := by
    rw [value_print]
    omega
  rw [printInt_eq]
  split_ifs with hneg
  · have hz : -Int64.ofNat z.toInt.natAbs = z := by
      rw [← Int64.ofInt_eq_ofNat, ← Int64.ofInt_neg, show -(z.toInt.natAbs : ℤ) = z.toInt by omega,
        Int64.ofInt_toInt]
    rw [stoull_minus (print_ne_nil _) hdigits hlt, value_print, ← Int64.toUInt64_ofNat',
      ← Int64.toUInt64_neg, hz]
  · have hz : Int64.ofNat z.toInt.natAbs = z := by
      rw [← Int64.ofInt_eq_ofNat, show (z.toInt.natAbs : ℤ) = z.toInt by omega, Int64.ofInt_toInt]
    rw [stoull_digits (print_ne_nil _) hdigits hlt, value_print, ← Int64.toUInt64_ofNat', hz]

end Decimal
