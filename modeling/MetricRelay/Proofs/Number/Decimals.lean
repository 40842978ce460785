import MetricRelay.Number.Numeral
import MetricRelay.Proofs.Number.Arithmetic

/-!
# Reading decimals

A decimal is read as the value in whose interval it lies
(`Numeral.toFloat_of_rounds`). Short decimals are read by one operation
on two exact numbers, long ones by a division of natural numbers of any
size; the guard against great powers of ten never concerns a decimal that
is in some interval, and the guard against small ones only what is rounded
to zero.
-/

namespace MetricRelay.Number

open Float.Model Float.Model.UnpackedFloat

/-! ## Decimals -/

theorem exactlyRepresentable_isFinite : ∀ e : Fin 23,
    Float.exactlyRepresentablePowersOfTen[e].isFinite := by
  decide

theorem exactlyRepresentable_parts : ∀ e : Fin 23,
    let b := Binary.ofFloat Float.exactlyRepresentablePowersOfTen[e]
    b.negative = false
      ∧ b.mantissa * 2 ^ b.exponent.toNat = 10 ^ e.val * 2 ^ (-b.exponent).toNat := by
  decide

/-- The table of powers of ten is exact. -/
theorem exists_exactlyRepresentable {e : Nat} (he : e < 23) :
    ∃ b : Binary, b.Canonical ∧ b.negative = false ∧ b.magnitude = 10 ^ e
      ∧ Float.exactlyRepresentablePowersOfTen[e] = b.toFloat := by
  have hf := exactlyRepresentable_isFinite ⟨e, he⟩
  obtain ⟨hs, hparts⟩ := exactlyRepresentable_parts ⟨e, he⟩
  refine ⟨_, canonical_ofFloat hf, hs, ?_, (toFloat_ofFloat hf).symm⟩
  rw [Binary.magnitude_eq_ratio, hparts]
  push_cast
  exact mul_div_cancel_right₀ _ (by positivity)

/-- A short decimal is read by one operation on two exact numbers. -/
theorem exists_operands {m e : Nat} (hm : m < 2 ^ 53) (he : e ≤ 22) (below : Bool) :
    ∃ n p : Binary, n.Canonical ∧ n.negative = false ∧ n.magnitude = m
      ∧ p.Canonical ∧ p.negative = false ∧ p.magnitude = 10 ^ e
      ∧ Float.ofScientific m below e
        = if below then n.toFloat / p.toFloat else n.toFloat * p.toFloat := by
  obtain ⟨n, hn, hns, hnm⟩ := exists_canonical_natural (Nat.le_of_lt hm) false
  obtain ⟨p, hp, hps, hpm, hpow⟩ := exists_exactlyRepresentable (Nat.lt_succ_of_le he)
  refine ⟨n, p, hn, hns, hnm, hp, hps, hpm, ?_⟩
  have hmn : m.toUInt64.toNat = m := by
    show m % 2 ^ 64 = m
    omega
  rw [← toFloat_uint64 hn hns (by rw [hmn, hnm]), ← hpow]
  exact dif_pos ⟨hm, he⟩

theorem ofScientific_of_short {b : Binary} (hb : b.Canonical) (hs : b.negative = false)
    {m e : Nat} (hm : m < 2 ^ 53) (hm0 : 0 < m) (he : e ≤ 22) {below : Bool}
    (h : b.Rounds (if below then (m / 10 ^ e : ℚ) else m * 10 ^ e)) :
    Float.ofScientific m below e = b.toFloat := by
  obtain ⟨n, p, hn, hns, hnm, hp, hps, hpm, hoperands⟩ := exists_operands hm he below
  have hn1 : 1 ≤ n.magnitude := by
    rw [hnm]
    exact_mod_cast hm0
  have hp0 : 0 < p.magnitude := by
    rw [hpm]
    positivity
  rw [hoperands]
  rw [← hnm, ← hpm] at h
  cases below with
  | false =>
    rw [if_neg Bool.false_ne_true] at h ⊢
    refine mul_toFloat_of_rounds hn hp hb ?_ hn1 hp0 h
    rw [hns, hps, hs]
    rfl
  | true =>
    rw [if_pos rfl] at h ⊢
    refine div_toFloat_of_rounds hn hp hb ?_ (lt_of_lt_of_le one_pos hn1) hp0 h
    rw [hns, hps, hs]
    rfl

/-- What is rounded to a value has not too great a power of ten. -/
theorem Binary.Rounds.exponent_le {b : Binary} (hb : b.Canonical) {m : Nat} (hm : 0 < m) {e : Int}
    (h : b.Rounds (m * 10 ^ e)) : e ≤ 2 ^ 11 := by
  by_contra hgt
  have hm1 : (1 : ℚ) ≤ m := by exact_mod_cast hm
  have hlt : (2 : ℚ) ^ e < 2 ^ (53 + b.exponent) :=
    calc (2 : ℚ) ^ e ≤ 10 ^ e := zpow_le_zpow_left₀ (by omega) (by norm_num) (by norm_num)
      _ ≤ m * 10 ^ e := le_mul_of_one_le_left (zpow_pos (by norm_num) e).le hm1
      _ < 2 ^ (53 + b.exponent) := h.lt_pow hb
  have := two_zpow_lt hlt
  have := hb.greatest
  omega

/-- What is rounded to a value has not too small a power of ten. -/
theorem Binary.Rounds.le_exponent {b : Binary} (hb : b.Canonical) (hb0 : b.mantissa ≠ 0) {m : Nat}
    {e : Int} (h : b.Rounds (m * 10 ^ e)) : -(2 ^ 11 + m.log2 : Int) ≤ e := by
  by_contra hlt
  have hm : (m : ℚ) < 2 ^ ((m.log2 : Int) + 1) := by
    have := lt_two_zpow_totalExponent (m := m) (e := 0) (y := m) (lt_add_one _)
    simpa [totalExponent] using this
  have hpow : (10 : ℚ) ^ e ≤ 2 ^ e := by
    obtain ⟨k, rfl⟩ : ∃ k : Nat, e = -k := ⟨(-e).toNat, by omega⟩
    rw [zpow_neg, zpow_neg, zpow_natCast, zpow_natCast]
    exact inv_anti₀ (pow_pos two_pos k) (pow_le_pow_left₀ two_pos.le (by norm_num) k)
  have hlt : (2 : ℚ) ^ (b.exponent - 1) < 2 ^ ((m.log2 : Int) + 1 + e) :=
    calc (2 : ℚ) ^ (b.exponent - 1) ≤ m * 10 ^ e := h.pow_le hb0
      _ ≤ m * 2 ^ e := mul_le_mul_of_nonneg_left hpow (Nat.cast_nonneg m)
      _ < 2 ^ ((m.log2 : Int) + 1) * 2 ^ e := mul_lt_mul_of_pos_right hm (Binary.two_zpow_pos e)
      _ = 2 ^ ((m.log2 : Int) + 1 + e) := (zpow_add₀ (by norm_num) _ _).symm
  have := two_zpow_lt hlt
  have hleast : -1074 ≤ b.exponent := hb.least
  omega

/-- The model of reading a decimal, which multiplies or divides by a power
of ten. -/
theorem model_ofScientific_of_rounds {b : Binary} (hb : b.Canonical) (hs : b.negative = false)
    {m : Nat} (hm : 0 < m) {e : Int} (h : b.Rounds (m * 10 ^ e)) :
    Float.ofModel (Float.Model.ofScientific m e) = b.toFloat := by
  have hle := h.exponent_le hb hm
  suffices hunpacked : UnpackedFloat.ofScientific Format.binary64 m e = b.unpacked from
    congrArg (fun u => Float.ofModel (.pack u)) hunpacked
  unfold UnpackedFloat.ofScientific
  rw [dif_neg (Nat.ne_of_gt hm), if_neg (not_lt.mpr hle)]
  split
  · next hlt =>
    have hb0 : b.mantissa = 0 := by
      by_contra hb0
      exact absurd (h.le_exponent hb hb0) (not_le.mpr hlt)
    rw [Binary.unpacked_of_zero hb0, hs]
    rfl
  split
  · next h0 =>
    have hfull : 2 ^ 52 ≤ m <<< 53 * 10 ^ e.toNat := by
      rw [Nat.shiftLeft_eq]
      calc 2 ^ 52 ≤ 1 * 2 ^ 53 * 1 := by decide
        _ ≤ m * 2 ^ 53 * 10 ^ e.toNat :=
          Nat.mul_le_mul (Nat.mul_le_mul_right _ hm) (Nat.pos_of_ne_zero (by positivity))
    have hm53 : ((m <<< 53 : Nat) : ℚ) * 2 ^ (-53 : Int) = m * 2 ^ (0 : Int) :=
      shiftLeft_mul_zpow m 53 0
    have he : ((10 ^ e.toNat : Nat) : ℚ) = 10 ^ e := by
      rw [Nat.cast_pow, ← zpow_natCast, Int.toNat_of_nonneg h0, Nat.cast_ofNat]
    have hround := mul_of_rounds (s := .positive) (t := .positive) (e := -53) (f := 0) hb
      (by rw [hs]; rfl)
      (Nat.pos_of_ne_zero fun h => absurd hfull (by rw [h, Nat.zero_mul]; decide))
      (Nat.pow_pos (by decide)) (le_targetExponent hfull _)
      (by rwa [hm53, he, zpow_zero, mul_one, mul_one])
    exact hround
  · next h0 =>
    refine div_of_rounds hb ?_ _ _ ?_
    · rw [hs]
      rfl
    · have he : (10 : ℚ) ^ e = ((10 ^ (-e).toNat : Nat) : ℚ)⁻¹ := by
        rw [Nat.cast_pow, ← zpow_natCast, Int.toNat_of_nonneg (by omega), zpow_neg, inv_inv,
          Nat.cast_ofNat]
      rwa [zpow_zero, mul_one, mul_one, div_eq_mul_inv, ← he]

theorem ofScientific_zero (below : Bool) (e : Nat) :
    Float.ofScientific 0 below e = (Binary.zero false).toFloat := by
  by_cases he : e ≤ 22
  · obtain ⟨n, p, hn, hns, hnm, hp, hps, hpm, hoperands⟩ :=
      exists_operands (Nat.two_pow_pos 53) he below
    have hn0 : n.mantissa = 0 := Binary.magnitude_eq_zero.mp (hnm.trans Nat.cast_zero)
    have hp0 : p.mantissa ≠ 0 := mantissa_ne_zero (by rw [hpm]; positivity)
    rw [hoperands, mul_toFloat hn hp, div_toFloat hn hp, Binary.unpacked_of_zero hn0,
      Binary.unpacked_of_ne_zero hp0, hns, hps]
    cases below <;> rfl
  · unfold Float.ofScientific
    rw [dif_neg fun h => he h.2]
    rfl

/-- Only zero is what zero is rounded to. -/
theorem Binary.Rounds.eq_zero {b : Binary} (hb : b.Canonical) (h : b.Rounds 0) :
    b = .zero b.negative := by
  have hb0 : b.mantissa = 0 := by
    by_contra hb0
    exact absurd (h.pow_le hb0) (not_le.mpr (Binary.two_zpow_pos _))
  refine eq_of_magnitude_eq hb (Binary.canonical_zero _) rfl ?_
  rw [Binary.magnitude_eq_zero.mpr hb0, Binary.magnitude_eq_zero.mpr rfl]

theorem ofScientific_of_rounds {b : Binary} (hb : b.Canonical) (hs : b.negative = false)
    {m : Nat} {e : Int} (h : b.Rounds (m * 10 ^ e)) :
    Float.ofScientific m (e < 0) e.natAbs = b.toFloat := by
  rcases Nat.eq_zero_or_pos m with rfl | hm
  · rw [Nat.cast_zero, zero_mul] at h
    rw [ofScientific_zero, h.eq_zero hb, hs]
  by_cases hshort : m < 2 ^ 53 ∧ e.natAbs ≤ 22
  · have hvalue : (m * 10 ^ e : ℚ)
        = if decide (e < 0) then (m / 10 ^ e.natAbs : ℚ) else m * 10 ^ e.natAbs := by
      by_cases he : e < 0
      · rw [if_pos (decide_eq_true he), div_eq_mul_inv, ← zpow_natCast, ← zpow_neg]
        congr 2
        omega
      · rw [if_neg (by simpa using he), ← zpow_natCast]
        congr 2
        omega
    exact ofScientific_of_short hb hs hshort.1 hm hshort.2 (hvalue ▸ h)
  · have hmodel : Float.ofScientific m (e < 0) e.natAbs
        = Float.ofModel (Float.Model.ofScientific m e) := by
      unfold Float.ofScientific
      rw [dif_neg hshort]
      dsimp only
      congr 2
      split
      · next he =>
        have := of_decide_eq_true he
        rw [Int.negOfNat_eq, Int.ofNat_eq_natCast]
        omega
      · next he =>
        have := of_decide_eq_false (Bool.eq_false_iff.mpr he)
        rw [Int.ofNat_eq_natCast]
        omega
    rw [hmodel]
    exact model_ofScientific_of_rounds hb hs hm h

/-! ## Numerals -/

namespace Numeral

def magnitude (n : Numeral) : ℚ := n.mantissa * 10 ^ (n.exponent - n.places)

end Numeral

theorem Numeral.toFloat_of_rounds {n : Numeral} {b : Binary} (hb : b.Canonical)
    (hs : n.negative = b.negative) (h : b.Rounds n.magnitude) : n.toFloat = b.toFloat := by
  unfold Numeral.toFloat
  dsimp only
  cases hneg : b.negative with
  | false =>
    rw [hs, hneg, if_neg Bool.false_ne_true]
    exact ofScientific_of_rounds hb hneg h
  | true =>
    have hopp : b.opposite.Canonical := ⟨hb.lt, hb.least, hb.greatest, hb.full⟩
    have hoppRounds : b.opposite.Rounds n.magnitude := ⟨h.low, h.high⟩
    have hoppNeg : b.opposite.negative = false := by rw [Binary.opposite, hneg]; rfl
    have hback : b.opposite.opposite = b := by
      unfold Binary.opposite
      rw [Bool.not_not]
    rw [hs, hneg, if_pos rfl, ofScientific_of_rounds hopp hoppNeg hoppRounds,
      neg_toFloat hopp, hback]

end MetricRelay.Number
