import SystemsCourse.Matching.Ingress

/-!
# The capacity of the ring

The loop of `round_power_of_two` doubles a word.

* `roundLoop_two_pow`     if it ends, it ends with a power of two;
* `roundPowerOfTwo_none`  above `2 ^ 63` the word becomes zero and the loop does not end;
* `capacity_rounding`     it ends with the least one that is large enough, exactly up to `2 ^ 63`.
-/

namespace Matching

/-! ## powers of two -/

theorem toNat_two_pow {k : ℕ} (hk : k ≤ 63) : (UInt64.ofNat (2^k)).toNat = 2^k := by
  have hle : 2^k ≤ 2^63 := Nat.pow_le_pow_right (by omega) hk
  rw [UInt64.toNat_ofNat', Nat.mod_eq_of_lt (by omega)]

theorem shiftLeft_two_pow (k : ℕ) :
    UInt64.ofNat (2^k) <<< 1 = UInt64.ofNat (2^(k + 1)) := by
  rw [← UInt64.toNat_inj, UInt64.toNat_shiftLeft, UInt64.toNat_ofNat', UInt64.toNat_ofNat',
    show (1 : UInt64).toNat % 64 = 1 from rfl, Nat.shiftLeft_eq, pow_one, pow_succ 2 k, Nat.mod_mul_mod]

/-- the mask of a power of two reduces a position -/
theorem mask_two_pow {capacity : UInt64} {k : ℕ} (hcap : capacity.toNat = 2^k) (position : UInt64) :
    (position &&& (capacity - 1)).toNat = position.toNat % 2^k := by
  have hpos : 1 ≤ capacity.toNat := by
    rw [hcap]
    exact Nat.one_le_two_pow
  have hmask : (capacity - 1).toNat = 2^k - 1 := by
    have hone : (1 : UInt64) ≤ capacity := UInt64.le_iff_toNat_le.mpr hpos
    rw [UInt64.toNat_sub_of_le _ _ hone, hcap]
    rfl
  rw [UInt64.toNat_and, hmask, Nat.and_two_pow_sub_one_eq_mod]

/-! ## the loop -/

theorem roundLoop_mono (requested : UInt64) {fuel fuel' : ℕ} (h : fuel ≤ fuel') (value : UInt64)
    {capacity : UInt64} (e : roundLoop requested fuel value = some capacity) :
    roundLoop requested fuel' value = some capacity := by
  induction fuel generalizing fuel' value with
  | zero => cases e
  | succ fuel ih =>
    obtain ⟨fuel', rfl⟩ : ∃ f, fuel' = f + 1 := ⟨fuel' - 1, by omega⟩
    rw [roundLoop] at e ⊢
    split at e
    · rename_i hlt
      rw [if_pos hlt]
      exact ih (by omega) _ e
    · rename_i hlt
      rw [if_neg hlt]
      exact e

/-- If the loop ends, it ends with a power of two that is large enough; for a request above `2 ^ 63` the
value becomes zero. -/
theorem roundLoop_two_pow {requested capacity : UInt64} {fuel : ℕ} {value : UInt64}
    (hv : (∃ k, 1 ≤ k ∧ k ≤ 63 ∧ value = UInt64.ofNat (2^k)) ∨ value = 0 ∧ 0 < requested)
    (e : roundLoop requested fuel value = some capacity) :
    ∃ k, 1 ≤ k ∧ k ≤ 63 ∧ capacity = UInt64.ofNat (2^k) ∧ requested ≤ capacity := by
  induction fuel generalizing value with
  | zero => cases e
  | succ fuel ih =>
    rw [roundLoop] at e
    rcases hv with ⟨k, h1, h2, rfl⟩ | ⟨rfl, hr⟩
    · split at e
      · rename_i hlt
        refine ih ?_ e
        rw [shiftLeft_two_pow]
        by_cases hk : k = 63
        · subst hk
          exact Or.inr ⟨rfl, Nat.lt_of_le_of_lt (Nat.zero_le _) hlt⟩
        · exact Or.inl ⟨k + 1, by omega, by omega, rfl⟩
      · rename_i hlt
        cases e
        exact ⟨k, h1, h2, rfl, UInt64.not_lt.mp hlt⟩
    · rw [if_pos hr] at e
      exact ih (Or.inr ⟨rfl, hr⟩) e

/-- For a request of at most `2 ^ m` the loop ends.  The power before the one that is returned was too
small; the induction is on the number of doublings that are left. -/
theorem roundLoop_least {requested : UInt64} {m : ℕ} (hm : m ≤ 63) (hr : requested.toNat ≤ 2^m) {k : ℕ}
    (n : ℕ) (h1 : 1 ≤ k) (hn : k + n = m) (hsmall : k = 1 ∨ 2^(k - 1) < requested.toNat) :
    ∃ k', roundLoop requested (n + 1) (UInt64.ofNat (2^k)) = some (UInt64.ofNat (2^k')) ∧ 1 ≤ k' ∧
      k' ≤ m ∧ requested.toNat ≤ 2^k' ∧ (k' = 1 ∨ 2^(k' - 1) < requested.toNat) := by
  have hk := toNat_two_pow (show k ≤ 63 by omega)
  induction n generalizing k with
  | zero =>
    have hkm : k = m := hn
    subst hkm
    refine ⟨k, ?_, h1, Nat.le_refl _, hr, hsmall⟩
    rw [roundLoop, if_neg (UInt64.not_lt.mpr (UInt64.le_iff_toNat_le.mpr (by rw [hk]; exact hr)))]
  | succ n ih =>
    by_cases hlt : UInt64.ofNat (2^k) < requested
    · have hbelow := UInt64.lt_iff_toNat_lt.mp hlt
      rw [hk] at hbelow
      rw [roundLoop, if_pos hlt, shiftLeft_two_pow]
      exact ih (by omega) (by omega) (Or.inr hbelow) (toNat_two_pow (by omega))
    · have hle := UInt64.le_iff_toNat_le.mp (UInt64.not_lt.mp hlt)
      rw [hk] at hle
      rw [roundLoop, if_neg hlt]
      exact ⟨k, rfl, h1, by omega, hle, hsmall⟩

/-- **the loop ends**, with a power of two that is large enough -/
theorem roundPowerOfTwo_spec (requested : UInt64) (hr : requested.toNat ≤ 2^62) :
    ∃ k capacity, (∀ fuel, 62 ≤ fuel → roundPowerOfTwo fuel requested = some capacity) ∧ 1 ≤ k ∧
      k ≤ 62 ∧ capacity.toNat = 2^k ∧ requested ≤ capacity := by
  obtain ⟨k, e, h1, h2, hle, _⟩ := roundLoop_least (by omega) hr 61 (Nat.le_refl 1) rfl (Or.inl rfl)
  have hcap := toNat_two_pow (show k ≤ 63 by omega)
  refine ⟨k, UInt64.ofNat (2^k), fun fuel hf => roundLoop_mono requested hf 2 e, h1, h2, hcap, ?_⟩
  rw [UInt64.le_iff_toNat_le, hcap]
  exact hle

/-- above `2 ^ 63` no word is large enough -/
theorem roundPowerOfTwo_none {requested : UInt64} (hr : 2^63 < requested.toNat) (fuel : ℕ) :
    roundPowerOfTwo fuel requested = none := by
  cases e : roundPowerOfTwo fuel requested with
  | none => rfl
  | some capacity =>
    obtain ⟨k, _, h2, rfl, hle⟩ := roundLoop_two_pow (Or.inl ⟨1, by omega, by omega, rfl⟩) e
    have hle' := UInt64.le_iff_toNat_le.mp hle
    have hpow : 2^k ≤ 2^63 := Nat.pow_le_pow_right (by omega) h2
    rw [toNat_two_pow h2] at hle'
    omega

/-- **Capacity rounding.**  The loop ends with the least power of two that is at least 2 and at least the
request, and masking with it reduces a position, exactly if the request is at most `2 ^ 63`. -/
theorem capacity_rounding (requested : UInt64) :
    (∃ k capacity, (∀ fuel, 63 ≤ fuel → roundPowerOfTwo fuel requested = some capacity) ∧
      capacity.toNat = 2^k ∧ max 2 requested.toNat ≤ 2^k ∧
      (∀ j, max 2 requested.toNat ≤ 2^j → 2^k ≤ 2^j) ∧
      ∀ position : UInt64, position &&& (capacity - 1) = position % capacity) ↔
    requested.toNat ≤ 2^63 := by
  constructor
  · rintro ⟨k, capacity, e, _⟩
    by_contra hr
    exact absurd ((e 63 (Nat.le_refl 63)).symm.trans (roundPowerOfTwo_none (Nat.lt_of_not_le hr) 63)) nofun
  · intro hr
    obtain ⟨k, e, h1, h2, hle, hsmall⟩ :=
      roundLoop_least (Nat.le_refl 63) hr 62 (Nat.le_refl 1) rfl (Or.inl rfl)
    have hcap := toNat_two_pow h2
    have htwo : 2^1 ≤ 2^k := Nat.pow_le_pow_right (by omega) h1
    refine ⟨k, UInt64.ofNat (2^k), fun fuel hf => roundLoop_mono requested hf 2 e, hcap,
      Nat.max_le.mpr ⟨htwo, hle⟩, ?_, ?_⟩
    · intro j hj
      obtain ⟨hj2, hjr⟩ := Nat.max_le.mp hj
      rcases hsmall with rfl | hsmall
      · exact hj2
      · have hpow := (Nat.pow_lt_pow_iff_right (Nat.lt_succ_self 1)).mp (hsmall.trans_le hjr)
        exact Nat.pow_le_pow_right (by omega) (by omega)
    · intro position
      rw [← UInt64.toNat_inj, mask_two_pow hcap, UInt64.toNat_mod, hcap]

/-- the largest request for which the loop ends -/
theorem capacity_rounding_half :
    ∃ k capacity, (∀ fuel, 63 ≤ fuel → roundPowerOfTwo fuel 9223372036854775808 = some capacity) ∧
      capacity.toNat = 2^k ∧ max 2 9223372036854775808 ≤ 2^k := by
  obtain ⟨k, capacity, e, hcap, hmax, _⟩ := (capacity_rounding 9223372036854775808).mpr (by decide)
  exact ⟨k, capacity, e, hcap, hmax⟩

/-- **The loop does not end** for the request `2 ^ 63 + 1`. -/
theorem rounding_diverges :
    UInt64.toNat 9223372036854775809 = 2^63 + 1 ∧ ∀ fuel, roundPowerOfTwo fuel 9223372036854775809 = none :=
  ⟨by decide, fun fuel => roundPowerOfTwo_none (by decide) fuel⟩

end Matching
