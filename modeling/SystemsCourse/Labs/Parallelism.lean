import Mathlib.Data.List.Basic
import Mathlib.Data.List.Perm.Basic
import Mathlib.Order.Monotone.Basic
import SystemsCourse.Lib.Words

/-!
# The parallelism lab

Model of `mix`, `sum_range` and `parallel_sum` in `labs/parallelism/reference.cpp`, with `unsigned` as
`UInt32`.  The workers write their partial sums in the order in which they finish.

The product `item_count * worker` may wrap around.

* `sumRange_add`          a range is summed up in two parts;
* `partitioned`           as long as it does not, the ranges are a partition of the items;
* `not_partitioned`       where it does, the last item is in no range;
* `parallel_sum_exact`    so that the ranges are a partition and the sums agree exactly if it does not.
-/

set_option linter.unusedVariables false

namespace Parallelism
open Words

/-! ## the functions -/

def mix (value : UInt64) : UInt64 :=
  let value := value + 0x9e3779b97f4a7c15
  let value := (value ^^^ value >>> 30) * 0xbf58476d1ce4e5b9
  let value := (value ^^^ value >>> 27) * 0x94d049bb133111eb
  value ^^^ value >>> 31

theorem toNat_succ_of_lt_stop {value stop : UInt64} (h : value < stop) :
    (value + 1).toNat = value.toNat + 1 := by
  have hlt := UInt64.lt_iff_toNat_lt.mp h
  have hstop := stop.toNat_lt
  exact toNat_succ_of_lt (by omega)

/-- the loop of `sum_range` -/
def sumLoop (stop value total : UInt64) : UInt64 :=
  if h : value < stop then sumLoop stop (value + 1) (total + mix value) else total
termination_by stop.toNat - value.toNat
decreasing_by
  have hlt := UInt64.lt_iff_toNat_lt.mp h
  have hsucc := toNat_succ_of_lt_stop h
  omega

def sumRange (first stop : UInt64) : UInt64 := sumLoop stop first 0

def workersToUse (itemCount : UInt64) (threadCount : UInt32) : UInt32 :=
  (min itemCount threadCount.toUInt64).toUInt32

/-- `item_count * worker / workers_to_use` -/
def bound (itemCount : UInt64) (workers worker : UInt32) : UInt64 :=
  itemCount * worker.toUInt64 / workers.toUInt64

/-- the range of a worker: `begin` and `end` -/
def rangeOf (itemCount : UInt64) (workers : UInt32) (worker : ℕ) : UInt64 × UInt64 :=
  (bound itemCount workers (.ofNat worker), bound itemCount workers (.ofNat worker + 1))

/-- `partials[worker]` -/
def partialSum (itemCount : UInt64) (workers : UInt32) (worker : ℕ) : UInt64 :=
  sumRange (rangeOf itemCount workers worker).1 (rangeOf itemCount workers worker).2

/-- `order` is the order in which the workers write their sums; there is no result if
`std::invalid_argument` is thrown -/
def parallelSum (order : List ℕ) (itemCount : UInt64) (threadCount : UInt32) : Option UInt64 :=
  if threadCount = 0 then none
  else if itemCount = 0 then some 0
  else
    let workers := workersToUse itemCount threadCount
    let partials := order.foldl (fun partials worker =>
      partials.set worker (partialSum itemCount workers worker)) (List.replicate workers.toNat 0)
    some (partials.foldl (· + ·) 0)

/-! ## sums -/

theorem sumLoop_of_lt {stop value : UInt64} (h : value < stop) (total : UInt64) :
    sumLoop stop value total = sumLoop stop (value + 1) (total + mix value) := by
  rw [sumLoop, dif_pos h]

theorem sumLoop_of_not_lt {stop value : UInt64} (h : ¬ value < stop) (total : UInt64) :
    sumLoop stop value total = total := by
  rw [sumLoop, dif_neg h]

/-- the total is carried along -/
theorem sumLoop_eq (stop value total : UInt64) :
    sumLoop stop value total = total + sumLoop stop value 0 := by
  induction hn : stop.toNat - value.toNat generalizing value total with
  | zero =>
    have hstop : ¬ value < stop := fun h => by
      have hlt := UInt64.lt_iff_toNat_lt.mp h
      omega
    rw [sumLoop_of_not_lt hstop, sumLoop_of_not_lt hstop, UInt64.add_zero]
  | succ n ih =>
    have hlt : value < stop := UInt64.lt_iff_toNat_lt.mpr (by omega)
    have hsucc := toNat_succ_of_lt_stop hlt
    rw [sumLoop_of_lt hlt, sumLoop_of_lt hlt, ih (value + 1) (total + mix value) (by omega),
      ih (value + 1) (0 + mix value) (by omega), UInt64.zero_add, UInt64.add_assoc]

theorem sumRange_self (value : UInt64) : sumRange value value = 0 :=
  sumLoop_of_not_lt (UInt64.lt_irrefl value) 0

theorem sumRange_cons {value stop : UInt64} (h : value < stop) :
    sumRange value stop = mix value + sumRange (value + 1) stop := by
  unfold sumRange
  rw [sumLoop_of_lt h, sumLoop_eq, UInt64.zero_add]

/-- a range is summed up in two parts -/
theorem sumRange_add {first middle stop : UInt64} (h1 : first ≤ middle) (h2 : middle ≤ stop) :
    sumRange first middle + sumRange middle stop = sumRange first stop := by
  have hle1 := UInt64.le_iff_toNat_le.mp h1
  have hle2 := UInt64.le_iff_toNat_le.mp h2
  induction hn : middle.toNat - first.toNat generalizing first with
  | zero =>
    have heq : first = middle := UInt64.toNat_inj.mp (by omega)
    rw [heq, sumRange_self, UInt64.zero_add]
  | succ n ih =>
    have hlt : first < middle := UInt64.lt_iff_toNat_lt.mpr (by omega)
    have hsucc := toNat_succ_of_lt_stop hlt
    have hstop : first < stop := UInt64.lt_iff_toNat_lt.mpr (by omega)
    rw [sumRange_cons hlt, sumRange_cons hstop, UInt64.add_assoc,
      ih (UInt64.le_iff_toNat_le.mpr (by omega)) (by omega) (by omega)]

/-! ## boundaries -/

/-- every number below the last boundary is between two neighbours -/
theorem exists_between {f : ℕ → ℕ} {x : ℕ} (n : ℕ) (h0 : f 0 ≤ x) (hx : x < f n) :
    ∃ i < n, f i ≤ x ∧ x < f (i + 1) := by
  induction n with
  | zero => omega
  | succ n ih =>
    by_cases hlt : x < f n
    · obtain ⟨i, hi, h⟩ := ih hlt
      exact ⟨i, Nat.lt_succ_of_lt hi, h⟩
    · exact ⟨n, Nat.lt_succ_self n, Nat.not_lt.mp hlt, hx⟩

theorem unique_between {f : ℕ → ℕ} (hmono : Monotone f) {x i j : ℕ} (hi : f i ≤ x ∧ x < f (i + 1))
    (hj : f j ≤ x ∧ x < f (j + 1)) : i = j := by
  rcases Nat.lt_trichotomy i j with hlt | heq | hlt
  · have := hmono (show i + 1 ≤ j from hlt)
    omega
  · exact heq
  · have := hmono (show j + 1 ≤ i from hlt)
    omega

theorem toNat_workersToUse (itemCount : UInt64) (threadCount : UInt32) :
    (workersToUse itemCount threadCount).toNat = min itemCount.toNat threadCount.toNat := by
  have hthreads := threadCount.toNat_lt
  have hmin : (min itemCount threadCount.toUInt64).toNat = min itemCount.toNat threadCount.toNat := by
    show (if itemCount ≤ threadCount.toUInt64 then itemCount else threadCount.toUInt64).toNat = _
    split_ifs with h
    · have hle := UInt64.le_iff_toNat_le.mp h
      rw [UInt32.toNat_toUInt64] at hle
      omega
    · have hle := UInt64.lt_iff_toNat_lt.mp (UInt64.not_le.mp h)
      rw [UInt32.toNat_toUInt64] at hle ⊢
      omega
  unfold workersToUse
  rw [UInt64.toNat_toUInt32, hmin, Nat.mod_eq_of_lt (by omega)]

/-- neighbours share their boundary -/
theorem rangeOf_snd (itemCount : UInt64) (workers : UInt32) (worker : ℕ) :
    (rangeOf itemCount workers worker).2 = (rangeOf itemCount workers (worker + 1)).1 := by
  unfold rangeOf
  rw [UInt32.ofNat_add]
  rfl

/-- The ranges begin with 0 and end with the number of items, each one where the one before it ends, and
an item is in exactly one of them. -/
structure Partitioned (itemCount : UInt64) (workers : UInt32) : Prop where
  first : 0 < workers.toNat → (rangeOf itemCount workers 0).1 = 0
  contiguous : ∀ worker, worker + 1 < workers.toNat →
    (rangeOf itemCount workers worker).2 = (rangeOf itemCount workers (worker + 1)).1
  last : ∀ worker, worker + 1 = workers.toNat → (rangeOf itemCount workers worker).2 = itemCount
  ordered : ∀ worker < workers.toNat,
    (rangeOf itemCount workers worker).1 ≤ (rangeOf itemCount workers worker).2
  covers : ∀ item, item < itemCount ↔ ∃ worker < workers.toNat,
    (rangeOf itemCount workers worker).1 ≤ item ∧ item < (rangeOf itemCount workers worker).2
  disjoint : ∀ item, ∀ worker < workers.toNat, ∀ worker' < workers.toNat,
    (rangeOf itemCount workers worker).1 ≤ item ∧ item < (rangeOf itemCount workers worker).2 →
    (rangeOf itemCount workers worker').1 ≤ item ∧ item < (rangeOf itemCount workers worker').2 →
    worker = worker'

/-- a boundary, in numbers that do not wrap around -/
def boundary (itemCount : UInt64) (workers : UInt32) (worker : ℕ) : ℕ :=
  itemCount.toNat * worker / workers.toNat

theorem boundary_mono (itemCount : UInt64) (workers : UInt32) : Monotone (boundary itemCount workers) :=
  fun _ _ h => Nat.div_le_div_right (Nat.mul_le_mul_left _ h)

theorem boundary_zero (itemCount : UInt64) (workers : UInt32) : boundary itemCount workers 0 = 0 := by
  unfold boundary
  rw [Nat.mul_zero, Nat.zero_div]

theorem boundary_workers {itemCount : UInt64} {workers : UInt32} (h : workers.toNat = 0 → itemCount = 0) :
    boundary itemCount workers workers.toNat = itemCount.toNat := by
  unfold boundary
  rcases Nat.eq_zero_or_pos workers.toNat with hzero | hpos
  · rw [h hzero, hzero]
    rfl
  · exact Nat.mul_div_cancel _ hpos

section
variable {itemCount : UInt64} {workers : UInt32} (hfit : itemCount.toNat * workers.toNat < 2^64)
include hfit

theorem toNat_rangeOf_fst {worker : ℕ} (h : worker ≤ workers.toNat) :
    (rangeOf itemCount workers worker).1.toNat = boundary itemCount workers worker := by
  have hworkers := workers.toNat_lt
  have hle : itemCount.toNat * worker ≤ itemCount.toNat * workers.toNat := Nat.mul_le_mul_left _ h
  have hofNat : (UInt32.ofNat worker).toUInt64.toNat = worker := by
    rw [UInt32.toNat_toUInt64]
    exact UInt32.toNat_ofNat_of_lt' (show worker < 2^32 by omega)
  unfold rangeOf bound
  rw [UInt64.toNat_div, toNat_mul_of_lt (by rw [hofNat]; omega), hofNat, UInt32.toNat_toUInt64]
  rfl

theorem mem_rangeOf {worker : ℕ} (h : worker < workers.toNat) (item : UInt64) :
    ((rangeOf itemCount workers worker).1 ≤ item ∧ item < (rangeOf itemCount workers worker).2) ↔
      boundary itemCount workers worker ≤ item.toNat ∧
        item.toNat < boundary itemCount workers (worker + 1) := by
  rw [rangeOf_snd, UInt64.le_iff_toNat_le, UInt64.lt_iff_toNat_lt, toNat_rangeOf_fst hfit h.le,
    toNat_rangeOf_fst hfit h]

/-- **without wrap-around the ranges are a partition** -/
theorem partitioned (hnone : workers.toNat = 0 → itemCount = 0) : Partitioned itemCount workers := by
  have hmono := boundary_mono itemCount workers
  have hzero := boundary_zero itemCount workers
  have hlast := boundary_workers hnone
  refine ⟨?_, fun worker _ => rangeOf_snd .., ?_, ?_, ?_, ?_⟩
  · intro _
    apply UInt64.toNat_inj.mp
    rw [toNat_rangeOf_fst hfit (Nat.zero_le _), hzero]
    rfl
  · intro worker h
    apply UInt64.toNat_inj.mp
    rw [rangeOf_snd, h, toNat_rangeOf_fst hfit (Nat.le_refl _), hlast]
  · intro worker h
    rw [rangeOf_snd, UInt64.le_iff_toNat_le, toNat_rangeOf_fst hfit h.le, toNat_rangeOf_fst hfit h]
    exact hmono (Nat.le_succ worker)
  · intro item
    rw [UInt64.lt_iff_toNat_lt, ← hlast]
    constructor
    · intro hitem
      obtain ⟨worker, h, hbetween⟩ := exists_between workers.toNat (hzero.trans_le (Nat.zero_le _)) hitem
      exact ⟨worker, h, (mem_rangeOf hfit h item).mpr hbetween⟩
    · rintro ⟨worker, h, hbetween⟩
      exact ((mem_rangeOf hfit h item).mp hbetween).2.trans_le (hmono h)
  · intro item worker h worker' h' hi hj
    exact unique_between hmono ((mem_rangeOf hfit h item).mp hi) ((mem_rangeOf hfit h' item).mp hj)

end

/-- where it wraps around, every boundary is below the number of items -/
theorem bound_lt {itemCount : UInt64} {workers : UInt32}
    (hwrap : 2^64 ≤ itemCount.toNat * workers.toNat) (worker : UInt32) :
    bound itemCount workers worker < itemCount := by
  have hproduct := (itemCount * worker.toUInt64).toNat_lt
  have hpos : 0 < workers.toNat := by
    refine Nat.pos_of_ne_zero fun h => ?_
    rw [h] at hwrap
    omega
  unfold bound
  rw [UInt64.lt_iff_toNat_lt, UInt64.toNat_div, UInt32.toNat_toUInt64, Nat.div_lt_iff_lt_mul hpos]
  omega

/-- **where it wraps around, the ranges are no partition**: the last item is in none of them -/
theorem not_partitioned {itemCount : UInt64} {workers : UInt32}
    (hwrap : 2^64 ≤ itemCount.toNat * workers.toNat) : ¬ Partitioned itemCount workers := by
  intro h
  have hpos : 1 ≤ itemCount.toNat := by
    refine Nat.pos_of_ne_zero fun hzero => ?_
    rw [hzero] at hwrap
    omega
  have hpred : (itemCount - 1).toNat = itemCount.toNat - 1 :=
    UInt64.toNat_sub_of_le _ _ (UInt64.le_iff_toNat_le.mpr hpos)
  obtain ⟨worker, _, _, hlt⟩ := (h.covers (itemCount - 1)).mp
    (UInt64.lt_iff_toNat_lt.mpr (by omega))
  have hbound := UInt64.lt_iff_toNat_lt.mp (bound_lt hwrap (UInt32.ofNat worker + 1))
  have hitem := UInt64.lt_iff_toNat_lt.mp hlt
  unfold rangeOf at hitem
  dsimp only at hitem
  omega

/-! ## the partial sums -/

theorem getElem?_foldl_set {α : Type} (f : ℕ → α) (order : List ℕ) {cells : List α} {i : ℕ}
    (hi : i < cells.length) :
    (order.foldl (fun cells worker => cells.set worker (f worker)) cells)[i]?
      = if i ∈ order then some (f i) else cells[i]? := by
  induction order generalizing cells with
  | nil => rw [if_neg List.not_mem_nil]; rfl
  | cons worker order ih =>
    rw [List.foldl_cons, ih (by rw [List.length_set]; exact hi)]
    by_cases hmem : i ∈ order
    · rw [if_pos hmem, if_pos (List.mem_cons_of_mem _ hmem)]
    · rw [if_neg hmem]
      by_cases heq : i = worker
      · subst heq
        rw [List.getElem?_set_self hi, if_pos List.mem_cons_self]
      · rw [List.getElem?_set_ne (Ne.symm heq), if_neg]
        rw [List.mem_cons, not_or]
        exact ⟨heq, hmem⟩

theorem length_foldl_set {α : Type} (f : ℕ → α) (order : List ℕ) (cells : List α) :
    (order.foldl (fun cells worker => cells.set worker (f worker)) cells).length = cells.length := by
  induction order generalizing cells with
  | nil => rfl
  | cons worker order ih => rw [List.foldl_cons, ih, List.length_set]

/-- each worker has written its own cell, in whatever order -/
theorem foldl_set_perm {α : Type} (f : ℕ → α) {order : List ℕ} {n : ℕ} (h : order.Perm (List.range n))
    (a : α) :
    order.foldl (fun cells worker => cells.set worker (f worker)) (List.replicate n a)
      = (List.range n).map f := by
  apply List.ext_getElem?
  intro i
  by_cases hi : i < n
  · have hmem : i ∈ order := h.mem_iff.mpr (List.mem_range.mpr hi)
    rw [getElem?_foldl_set f order (by rw [List.length_replicate]; exact hi), if_pos hmem,
      List.getElem?_map, List.getElem?_range hi]
    rfl
  · rw [List.getElem?_eq_none, List.getElem?_eq_none]
    · rw [List.length_map, List.length_range]
      omega
    · rw [length_foldl_set, List.length_replicate]
      omega

/-- the sums of the first workers -/
theorem foldl_partialSum {itemCount : UInt64} {workers : UInt32} (h : Partitioned itemCount workers)
    (hpos : 0 < workers.toNat) {n : ℕ} (hn : n ≤ workers.toNat) :
    ((List.range n).map (partialSum itemCount workers)).foldl (· + ·) 0
      = sumRange 0 (rangeOf itemCount workers n).1 := by
  induction n with
  | zero =>
    rw [h.first hpos, sumRange_self]
    rfl
  | succ n ih =>
    rw [List.range_succ, List.map_append, List.foldl_append, ih (by omega)]
    show sumRange 0 _ + partialSum itemCount workers n = _
    unfold partialSum
    rw [sumRange_add (UInt64.le_iff_toNat_le.mpr (Nat.zero_le _)) (h.ordered n hn), rangeOf_snd]

theorem parallelSum_of_partitioned {itemCount : UInt64} {threadCount : UInt32} (hthreads : threadCount ≠ 0)
    (hpart : Partitioned itemCount (workersToUse itemCount threadCount)) {order : List ℕ}
    (horder : order.Perm (List.range (workersToUse itemCount threadCount).toNat)) :
    parallelSum order itemCount threadCount = some (sumRange 0 itemCount) := by
  have hworkers := toNat_workersToUse itemCount threadCount
  have hpos : 0 < threadCount.toNat := Nat.pos_of_ne_zero fun h => hthreads (UInt32.toNat_inj.mp h)
  unfold parallelSum
  rw [if_neg hthreads]
  split_ifs with hitems
  · rw [hitems, sumRange_self]
  · have hitems' : itemCount.toNat ≠ 0 := fun h => hitems (UInt64.toNat_inj.mp h)
    obtain ⟨n, hn⟩ : ∃ n, n + 1 = (workersToUse itemCount threadCount).toNat :=
      ⟨(workersToUse itemCount threadCount).toNat - 1, by omega⟩
    dsimp only
    rw [foldl_set_perm (partialSum itemCount (workersToUse itemCount threadCount)) horder 0,
      foldl_partialSum hpart (by omega) (Nat.le_refl _), ← hn, ← rangeOf_snd, hpart.last n hn]

/-- **Parallel sum.**  The ranges are a partition of the items and the sum is that of `sum_range`, in
whatever order the workers finish, exactly if the number of items times the number of workers is below
`2 ^ 64`. -/
theorem parallel_sum_exact (itemCount : UInt64) (threadCount : UInt32) (hthreads : threadCount ≠ 0) :
    (Partitioned itemCount (workersToUse itemCount threadCount) ∧
      ∀ order : List ℕ, order.Perm (List.range (workersToUse itemCount threadCount).toNat) →
        parallelSum order itemCount threadCount = some (sumRange 0 itemCount)) ↔
    itemCount.toNat * min itemCount.toNat threadCount.toNat < 2^64 := by
  have hpos : 0 < threadCount.toNat := Nat.pos_of_ne_zero fun h => hthreads (UInt32.toNat_inj.mp h)
  have hworkers := toNat_workersToUse itemCount threadCount
  rw [← hworkers]
  constructor
  · rintro ⟨hpart, _⟩
    by_contra hwrap
    exact not_partitioned (Nat.le_of_not_lt hwrap) hpart
  · intro hfit
    have hpart : Partitioned itemCount (workersToUse itemCount threadCount) := by
      refine partitioned hfit fun hzero => ?_
      apply UInt64.toNat_inj.mp
      show itemCount.toNat = 0
      omega
    exact ⟨hpart, fun order horder => parallelSum_of_partitioned hthreads hpart horder⟩

theorem parallel_sum_exact_ten :
    [2, 0, 3, 1].Perm (List.range (workersToUse 10 4).toNat) ∧
      parallelSum [2, 0, 3, 1] 10 4 = some (sumRange 0 10) := by
  have horder : [2, 0, 3, 1].Perm (List.range (workersToUse 10 4).toNat) := by decide
  exact ⟨horder, ((parallel_sum_exact 10 4 (by decide)).mpr (by decide)).2 _ horder⟩

/-- **`2 ^ 63` items and two threads.**  The second product wraps around: its range is empty, and half of
the items are in no range. -/
theorem lost_items :
    workersToUse 9223372036854775808 2 = 2 ∧
      rangeOf 9223372036854775808 2 0 = (0, 4611686018427387904) ∧
      rangeOf 9223372036854775808 2 1 = (4611686018427387904, 0) ∧
      ¬ Partitioned 9223372036854775808 (workersToUse 9223372036854775808 2) :=
  ⟨by decide, by decide, by decide, not_partitioned (by decide)⟩

end Parallelism
