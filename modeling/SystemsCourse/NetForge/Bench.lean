import SystemsCourse.Lib.Rank
import SystemsCourse.Lib.Words

/-!
# Benchmark percentiles

Model of `percentile` in `capstone/reference/apps/bench_main.cpp`, with `std::size_t` as `UInt64` and
`long long` as `Int64`.
-/

namespace NetForge
open Words

/-- an index outside of the samples has no result -/
def percentile (sortedNanoseconds : List Int64) (percent : UInt64) : Option Int64 :=
  let numerator := percent * UInt64.ofNat sortedNanoseconds.length
  let rank := (numerator + 99) / 100
  sortedNanoseconds[(max 1 rank - 1).toNat]?

/-- the rank is rounded up; for samples it is not zero -/
theorem percentile_index {n : ℕ} (hn : 0 < n) (hle : n ≤ 10000000) {percent : UInt64}
    (hlo : 1 ≤ percent.toNat) (hhi : percent.toNat ≤ 100) :
    (max 1 ((percent * UInt64.ofNat n + 99) / 100) - 1).toNat = (percent.toNat * n + 99) / 100 - 1 := by
  have hofNat : (UInt64.ofNat n).toNat = n := UInt64.toNat_ofNat_of_lt' (show n < 2^64 by omega)
  have hpos : 1 ≤ percent.toNat * n := Nat.mul_pos hlo hn
  have hmax : percent.toNat * n ≤ 100 * 10000000 := Nat.mul_le_mul hhi hle
  have hmul : (percent * UInt64.ofNat n).toNat = percent.toNat * n := by
    rw [toNat_mul_of_lt (by rw [hofNat]; omega), hofNat]
  have hadd : (percent * UInt64.ofNat n + 99).toNat = percent.toNat * n + 99 := by
    rw [toNat_add_of_lt (by rw [hmul]; show _ + 99 < _; omega), hmul]
    rfl
  have hrank : ((percent * UInt64.ofNat n + 99) / 100).toNat = (percent.toNat * n + 99) / 100 := by
    rw [UInt64.toNat_div, hadd]
    rfl
  have hone : (1 : UInt64) ≤ (percent * UInt64.ofNat n + 99) / 100 := by
    rw [UInt64.le_iff_toNat_le, hrank]
    show 1 ≤ _
    omega
  have hclamp : max 1 ((percent * UInt64.ofNat n + 99) / 100) = (percent * UInt64.ofNat n + 99) / 100 :=
    if_pos hone
  rw [hclamp, UInt64.toNat_sub_of_le _ _ hone, hrank]
  rfl

/-- the least of the samples with so many of them up to it -/
structure NearestRank (percent : ℕ) (samples : List Int64) (x : Int64) : Prop where
  mem : x ∈ samples
  rank : percent * samples.length ≤ 100 * samples.countP (· ≤ x)
  least : ∀ y ∈ samples, percent * samples.length ≤ 100 * samples.countP (· ≤ y) → x ≤ y

namespace NearestRank
variable {percent percent' : ℕ} {samples samples' : List Int64} {x y : Int64}

theorem perm (h : NearestRank percent samples x) (hp : samples.Perm samples') :
    NearestRank percent samples' x := by
  obtain ⟨hmem, hrank, hleast⟩ := h
  rw [hp.length_eq, hp.countP_eq] at hrank
  refine ⟨hp.mem_iff.mp hmem, hrank, fun y hy hcount => hleast y (hp.mem_iff.mpr hy) ?_⟩
  rwa [hp.length_eq, hp.countP_eq]

theorem mono (h : NearestRank percent samples x) (h' : NearestRank percent' samples y)
    (hle : percent ≤ percent') : x ≤ y :=
  h.least y h'.mem (Nat.le_trans (Nat.mul_le_mul_right _ hle) h'.rank)

end NearestRank

theorem percentile_spec {samples : List Int64} {percent : UInt64} (hpos : 0 < samples.length)
    (hsorted : samples.Pairwise (· ≤ ·)) (hlen : samples.length ≤ 10000000)
    (hlo : 1 ≤ percent.toNat) (hhi : percent.toNat ≤ 100) :
    ∃ x, percentile samples percent = some x ∧ NearestRank percent.toNat samples x := by
  have hle : percent.toNat * samples.length ≤ 100 * samples.length := Nat.mul_le_mul_right _ hhi
  have hmul : 1 ≤ percent.toNat * samples.length := Nat.mul_pos hlo hpos
  obtain ⟨x, hx, hmem, hcount, hleast⟩ := Rank.least_of_rank hsorted
    (show 1 ≤ (percent.toNat * samples.length + 99) / 100 by omega) (by omega)
  refine ⟨x, ?_, hmem, by omega, fun y _ hy => hleast y (by omega)⟩
  unfold percentile
  dsimp only
  rw [percentile_index hpos hlen hlo hhi]
  exact hx

/-- **Percentiles are nearest-rank.** -/
theorem percentile_nearest_rank (samples : List Int64) (percent : UInt64)
    (hne : samples ≠ []) (hsorted : samples.Pairwise (· ≤ ·)) (hlen : samples.length ≤ 10000000)
    (hlo : 1 ≤ percent.toNat) (hhi : percent.toNat ≤ 100) :
    ∃ x, percentile samples percent = some x ∧ x ∈ samples ∧
      percent.toNat * samples.length ≤ 100 * samples.countP (· ≤ x) ∧
      ∀ y ∈ samples, percent.toNat * samples.length ≤ 100 * samples.countP (· ≤ y) → x ≤ y := by
  obtain ⟨x, hx, h⟩ := percentile_spec (List.length_pos_of_ne_nil hne) hsorted hlen hlo hhi
  exact ⟨x, hx, h.mem, h.rank, h.least⟩

/-- repeated samples; the median of five is the third -/
theorem percentile_nearest_rank_five :
    ∃ x, percentile [1, 2, 2, 2, 7] 50 = some x ∧ x ∈ [1, 2, 2, 2, 7] ∧
      50 * 5 ≤ 100 * [1, 2, 2, 2, 7].countP (· ≤ x) := by
  obtain ⟨x, hx, hmem, hcount, _⟩ := percentile_nearest_rank [1, 2, 2, 2, 7] 50 (by decide) (by decide)
    (by decide) (by decide) (by decide)
  exact ⟨x, hx, hmem, hcount⟩

end NetForge
