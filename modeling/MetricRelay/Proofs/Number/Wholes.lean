import MetricRelay.Proofs.Number.Integers
import MetricRelay.Proofs.Number.Range

/-!
# Integers as numbers

Every integer of 64 bits is in range as a floating point number. Those up
to `2 ^ 53` are exact; a greater one is rounded, but to a value whose
exponent is positive, so what comes out is an integer again, of the same
sign (`exact_ofInt64_isInt`).
-/

namespace MetricRelay.Number

namespace Binary

variable {b : Binary}

theorem exists_natCast_of_exponent (h : 0 ≤ b.exponent) : ∃ k : Nat, b.magnitude = k := by
  refine ⟨b.mantissa * 2 ^ b.exponent.toNat, ?_⟩
  rw [magnitude_eq_ratio, Int.toNat_of_nonpos (by omega : -b.exponent ≤ 0), pow_zero, Nat.cast_one,
    div_one]

/-- What is rounded from beyond the significand has no fraction. -/
theorem Rounds.exponent_pos (hb : b.Canonical) {n : Nat} (hn : 2 ^ 53 < n) (h : b.Rounds n) :
    0 < b.exponent := by
  have hpow : (2 : ℚ) ^ (53 : Int) < 2 ^ (53 + b.exponent) :=
    lt_trans (by exact_mod_cast hn) (h.lt_pow hb)
  have := two_zpow_lt hpow
  omega

theorem natCast_lt_overflow_of_le {n : Nat} (hn : n ≤ 2 ^ 63) : (n : ℚ) < overflow := by
  have hle : (n : ℚ) ≤ 2 ^ 63 := by exact_mod_cast hn
  have hpow : (2 : ℚ) ^ 52 * 2 ^ (12 : Int) ≤ overflow :=
    mul_pow_le_overflow (by norm_num) (by norm_num) (by norm_num)
  exact (hle.trans_lt (by norm_num)).trans_le hpow

theorem exists_rounds_int {n : Int} (hn : n.natAbs ≤ 2 ^ 63) :
    ∃ b : Binary, b.Canonical ∧ b.negative = decide (n < 0) ∧ b.Rounds n.natAbs
      ∧ ∃ k : Nat, b.magnitude = k := by
  by_cases hfits : Fits n
  · obtain ⟨b, hb⟩ := exists_isInt hfits
    have hrounds := b.rounds_magnitude
    rw [hb.magnitude] at hrounds
    exact ⟨b, hb.canonical, hb.sign, hrounds, _, hb.magnitude⟩
  · obtain ⟨b, hb, hs, hrounds⟩ :=
      exists_rounds (Nat.cast_nonneg _) (natCast_lt_overflow_of_le hn) (decide (n < 0))
    have hexponent := hrounds.exponent_pos hb (not_le.mp hfits)
    exact ⟨b, hb, hs, hrounds, exists_natCast_of_exponent hexponent.le⟩

end Binary

/-- An integer of 64 bits becomes a finite number without a fraction, which
is not negative unless the integer is. -/
theorem exact_ofInt64_isInt (n : Int64) :
    (ofInt64 n).isFinite ∧ ∃ k : Int, exact (ofInt64 n) = k ∧ (0 ≤ n.toInt → 0 ≤ k) := by
  have hbound : n.toInt.natAbs ≤ 2 ^ 63 := by
    have := n.le_toInt
    have := n.toInt_lt
    omega
  obtain ⟨b, hb, hs, hrounds, k, hk⟩ := Binary.exists_rounds_int hbound
  rw [ofInt64, ofInt_of_rounds hb hs hrounds]
  refine ⟨isFinite_toFloat hb, ?_⟩
  have hexact : exact b.toFloat = if b.negative then -b.magnitude else b.magnitude := by
    rw [exact, ofFloat_toFloat hb]
  rw [hexact, hs, hk]
  by_cases hn : n.toInt < 0
  · exact ⟨-k, by simp [hn], by omega⟩
  · exact ⟨k, by simp [hn], fun _ => Int.natCast_nonneg k⟩

end MetricRelay.Number
