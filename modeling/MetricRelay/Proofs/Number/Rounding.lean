import MetricRelay.Proofs.Number.Bits

/-!
# Which exact numbers round to which floating point number

Arithmetic on floating point numbers computes a significand with two
residual bits and rounds it. `Stands` says what such a significand tells
about the exact number behind it, and `Stands.shiftRight` that shifting
keeps it true. `Binary.Rounds` is the interval of the exact numbers that
belong to a value: half a place up, and down half a place or, below a
power of two, a quarter.

`roundWithAccuracy_of_rounds` is the one theorem about rounding: whatever
way the exact number was approximated, the result is the value in whose
interval the exact number lies. Products, quotients and decimals follow
from it without another look at the bits.
-/

namespace MetricRelay.Number

open Float.Model Float.Model.UnpackedFloat

/-! ## Residual bits -/

/-- The worth of the round bit. -/
def half (bit : Bool) : ℚ := if bit then 1 / 2 else 0

/-- What an extended mantissa says about an exact number. -/
def Stands (em : ExtendedMantissa) (y : ℚ) : Prop :=
  if em.stickyBit then
    em.mantissa + half em.roundBit < y ∧ y < em.mantissa + half em.roundBit + 1 / 2
  else y = em.mantissa + half em.roundBit

theorem stands_exact {m : Nat} {y : ℚ} : Stands ⟨m, false, false⟩ y ↔ y = m := by
  simp [Stands, half]

theorem stands_below {m : Nat} {y : ℚ} :
    Stands ⟨m, false, true⟩ y ↔ m < y ∧ y < m + 1 / 2 := by
  simp [Stands, half]

theorem stands_halfway {m : Nat} {y : ℚ} : Stands ⟨m, true, false⟩ y ↔ y = m + 1 / 2 := by
  simp [Stands, half]

theorem stands_above {m : Nat} {y : ℚ} :
    Stands ⟨m, true, true⟩ y ↔ m + 1 / 2 < y ∧ y < m + 1 := by
  simp only [Stands, half, if_true]
  constructor <;> rintro ⟨h1, h2⟩ <;> exact ⟨h1, by linarith⟩

theorem Stands.floor {em : ExtendedMantissa} {y : ℚ} (h : Stands em y) :
    em.mantissa ≤ y ∧ y < em.mantissa + 1 := by
  obtain ⟨m, r, s⟩ := em
  cases r <;> cases s <;>
    simp only [stands_exact, stands_below, stands_halfway, stands_above] at h <;>
    constructor <;> dsimp only <;> linarith

theorem ofMantissaAndAccuracy_mantissa (m : Nat) (acc : Accuracy) :
    (ExtendedMantissa.ofMantissaAndAccuracy m acc).mantissa = m := by
  cases acc with
  | exact => rfl
  | inexact o => cases o <;> rfl

theorem Stands.quotient {m : Nat} {acc : Accuracy} {y : ℚ}
    (h : Stands (.ofMantissaAndAccuracy m acc) y) : m ≤ y ∧ y < m + 1 := by
  have := h.floor
  rwa [ofMantissaAndAccuracy_mantissa] at this

theorem half_odd (m : Nat) : (m : ℚ) = 2 * ((m / 2 : Nat) + half (m % 2 != 0)) := by
  have hm : (m : ℚ) = 2 * (m / 2 : Nat) + (m % 2 : Nat) := by
    exact_mod_cast (Nat.div_add_mod m 2).symm
  rcases Nat.mod_two_eq_zero_or_one m with h | h
  · simp [h] at hm
    simp [half, h, ← hm]
  · rw [h] at hm
    simp only [half, h]
    push_cast at hm
    norm_num
    linarith

theorem Stands.shiftRightOne {em : ExtendedMantissa} {y : ℚ} (h : Stands em y) :
    Stands em.shiftRightOne (y / 2) := by
  obtain ⟨m, r, s⟩ := em
  have hm := half_odd m
  unfold ExtendedMantissa.shiftRightOne Stands
  dsimp only
  generalize ((m / 2 : Nat) : ℚ) + half (m % 2 != 0) = z at hm
  cases r <;> cases s <;> simp [Stands, half] at h ⊢
  · linarith
  · constructor <;> linarith
  · constructor <;> linarith
  · constructor <;> linarith

theorem Stands.shiftRight {em : ExtendedMantissa} {y : ℚ} (h : Stands em y) (k : Nat) :
    Stands (em >>> k) (y / 2 ^ k) := by
  show Stands (k.repeat ExtendedMantissa.shiftRightOne em) _
  induction k with
  | zero => simpa [Nat.repeat] using h
  | succ k ih =>
    rw [pow_succ, ← div_div]
    exact ih.shiftRightOne

theorem Stands.rounded {em : ExtendedMantissa} {y : ℚ} (h : Stands em y) {n : Nat}
    (hlow : (n : ℚ) - 1 / 2 < y ∨ n % 2 = 0 ∧ (n : ℚ) - 1 / 2 = y)
    (hhigh : y < n + 1 / 2 ∨ n % 2 = 0 ∧ y = n + 1 / 2) : em.roundedMantissa = n := by
  obtain ⟨m, r, s⟩ := em
  have hlow' : (n : ℚ) - 1 / 2 ≤ y := hlow.elim le_of_lt fun h => le_of_eq h.2
  have hhigh' : y ≤ n + 1 / 2 := hhigh.elim le_of_lt fun h => le_of_eq h.2
  cases r <;> cases s <;>
    simp only [stands_exact, stands_below, stands_halfway, stands_above] at h <;>
    simp only [ExtendedMantissa.roundedMantissa, ExtendedMantissa.accuracy,
      Accuracy.roundToNearestEven]
  · have h1 : (2 * n : ℚ) ≤ 2 * m + 1 := by linarith
    have h2 : (2 * m : ℚ) ≤ 2 * n + 1 := by linarith
    norm_cast at h1 h2
    omega
  · have h1 : (n : ℚ) < m + 1 := by linarith
    have h2 : (m : ℚ) < n + 1 := by linarith
    norm_cast at h1 h2
    omega
  · -- halfway: `n` is `m` or `m + 1`, and even in either case
    have h1 : (n : ℚ) ≤ m + 1 := by linarith
    have h2 : (m : ℚ) ≤ n := by linarith
    norm_cast at h1 h2
    rcases Nat.lt_or_eq_of_le h2 with h3 | h3
    · obtain rfl : n = m + 1 := by omega
      have heven : (m + 1) % 2 = 0 := by
        rcases hlow with hlt | heq
        · push_cast at hlt
          linarith
        · exact heq.1
      omega
    · subst h3
      have heven : m % 2 = 0 := by
        rcases hhigh with hlt | heq
        · linarith
        · exact heq.1
      omega
  · have h1 : (n : ℚ) < m + 2 := by linarith
    have h2 : (m : ℚ) < n := by linarith
    norm_cast at h1 h2
    omega

/-! ## Shifting -/

theorem shiftToTargetExponent_eq {m : Nat} {e : Int} {acc : Accuracy} :
    shiftToTargetExponent Format.binary64 m e acc =
      (ExtendedMantissa.ofMantissaAndAccuracy m acc
          >>> (Format.binary64.targetExponent (totalExponent m e) - e).toNat,
        e + (Format.binary64.targetExponent (totalExponent m e) - e).toNat) := rfl

theorem targetExponent_eq (t : Int) : Format.binary64.targetExponent t = max (t - 53) (-1074) := rfl

/-- A significand that is short enough for its exponent is not shifted. -/
theorem shiftToTargetExponent_of_lt {m : Nat} {e : Int} (hm : m < 2 ^ 53) (he : -1074 ≤ e) :
    shiftToTargetExponent Format.binary64 m e .exact = (⟨m, false, false⟩, e) := by
  have hlog : m.log2 ≤ 52 := by
    by_cases h0 : m = 0
    · subst h0; decide
    · have := (Nat.log2_lt h0).mpr hm
      omega
  have hk : (Format.binary64.targetExponent (totalExponent m e) - e).toNat = 0 := by
    rw [targetExponent_eq, totalExponent]
    omega
  rw [shiftToTargetExponent_eq, hk]
  simp only [Int.ofNat_zero, Int.add_zero]
  rfl

/-- A significand one bit too long is halved. -/
theorem shiftToTargetExponent_pow {e : Int} (he : -1074 ≤ e) :
    shiftToTargetExponent Format.binary64 (2 ^ 53) e .exact = (⟨2 ^ 52, false, false⟩, e + 1) := by
  have hk : (Format.binary64.targetExponent (totalExponent (2 ^ 53) e) - e).toNat = 1 := by
    rw [targetExponent_eq, totalExponent, Nat.log2_two_pow]
    omega
  rw [shiftToTargetExponent_eq, hk]
  rfl

namespace Binary
/-- How far below the number its interval begins, in units of the last place. -/
def reachBelow (b : Binary) : ℚ := if b.nearBelow then 1 / 4 else 1 / 2

/-- The exact numbers that are rounded to `b`, ends included where its significand is
even. -/
structure Rounds (b : Binary) (q : ℚ) : Prop where
  low : (b.mantissa - b.reachBelow) * 2 ^ b.exponent < q
    ∨ b.mantissa % 2 = 0 ∧ (b.mantissa - b.reachBelow) * 2 ^ b.exponent = q
  high : q < (b.mantissa + 1 / 2) * 2 ^ b.exponent
    ∨ b.mantissa % 2 = 0 ∧ q = (b.mantissa + 1 / 2) * 2 ^ b.exponent

variable {b : Binary} {q : ℚ}

theorem two_zpow_pos (e : Int) : (0 : ℚ) < 2 ^ e := zpow_pos (by norm_num) e

theorem Rounds.low_le (h : b.Rounds q) : (b.mantissa - b.reachBelow) * 2 ^ b.exponent ≤ q :=
  h.low.elim le_of_lt fun h => le_of_eq h.2

theorem Rounds.le_high (h : b.Rounds q) : q ≤ (b.mantissa + 1 / 2) * 2 ^ b.exponent :=
  h.high.elim le_of_lt fun h => le_of_eq h.2

theorem reachBelow_pos (b : Binary) : 0 < b.reachBelow := by
  unfold reachBelow
  split <;> norm_num

theorem nearBelow_iff {b : Binary} :
    b.nearBelow ↔ b.mantissa = 2 ^ 52 ∧ b.exponent ≠ -1074 := by
  rw [nearBelow, Bool.and_eq_true, decide_eq_true_eq, bne_iff_ne]
  rfl

theorem reachBelow_le (b : Binary) : b.reachBelow ≤ 1 / 2 := by
  unfold reachBelow
  split <;> norm_num

/-- What is rounded to a canonical number is below the next power of two. -/
theorem Rounds.lt_pow (hb : b.Canonical) (h : b.Rounds q) : q < 2 ^ (53 + b.exponent) := by
  have hm : (b.mantissa : ℚ) ≤ 2 ^ 53 - 1 := by
    have := hb.lt
    have h1 : b.mantissa + 1 ≤ 2 ^ 53 := this
    have h2 : (b.mantissa : ℚ) + 1 ≤ 2 ^ 53 := by exact_mod_cast h1
    linarith
  have hp := two_zpow_pos b.exponent
  calc q ≤ (b.mantissa + 1 / 2) * 2 ^ b.exponent := h.le_high
    _ < 2 ^ 53 * 2 ^ b.exponent := by
      apply mul_lt_mul_of_pos_right _ hp
      linarith
    _ = 2 ^ (53 + b.exponent) := by
      rw [zpow_add₀ (by norm_num)]
      norm_num

theorem Rounds.pow_le (hm : b.mantissa ≠ 0) (h : b.Rounds q) : 2 ^ (b.exponent - 1) ≤ q := by
  have hm1 : (1 : ℚ) ≤ b.mantissa := by exact_mod_cast Nat.pos_of_ne_zero hm
  have hp := two_zpow_pos b.exponent
  have hr := b.reachBelow_le
  calc (2 : ℚ) ^ (b.exponent - 1) = 1 / 2 * 2 ^ b.exponent := by
        rw [zpow_sub₀ (by norm_num)]
        ring
    _ ≤ (b.mantissa - b.reachBelow) * 2 ^ b.exponent := by
      apply mul_le_mul_of_nonneg_right _ (le_of_lt hp)
      linarith
    _ ≤ q := h.low_le

end Binary

/-- An approximation lies below the power of two that its length gives. -/
theorem lt_two_zpow_totalExponent {m : Nat} {e : Int} {y : ℚ} (hy : y < m + 1) :
    y * 2 ^ e < 2 ^ totalExponent m e := by
  have hp := Binary.two_zpow_pos e
  have hm : (m : ℚ) + 1 ≤ 2 ^ (m.log2 + 1) := by exact_mod_cast Nat.lt_log2_self (n := m)
  calc y * 2 ^ e < 2 ^ (m.log2 + 1) * 2 ^ e := mul_lt_mul_of_pos_right (by linarith) hp
    _ = 2 ^ totalExponent m e := by
      rw [totalExponent, zpow_add₀ (by norm_num), ← zpow_natCast]
      norm_cast

theorem two_zpow_totalExponent_le {m : Nat} {e : Int} {y : ℚ} (hm : m ≠ 0) (hy : m ≤ y) :
    2 ^ (totalExponent m e - 1) ≤ y * 2 ^ e := by
  have hp := Binary.two_zpow_pos e
  have hm : (2 : ℚ) ^ m.log2 ≤ m := by exact_mod_cast Nat.log2_self_le hm
  calc (2 : ℚ) ^ (totalExponent m e - 1) = 2 ^ m.log2 * 2 ^ e := by
        rw [show totalExponent m e - 1 = (m.log2 : Int) + e by rw [totalExponent]; ring,
          zpow_add₀ (by norm_num), zpow_natCast]
    _ ≤ y * 2 ^ e := mul_le_mul_of_nonneg_right (by linarith) (le_of_lt hp)

theorem two_zpow_lt {i j : Int} (h : (2 : ℚ) ^ i < 2 ^ j) : i < j :=
  (zpow_lt_zpow_iff_right₀ (by norm_num)).mp h

namespace Binary
variable {b : Binary} {q : ℚ}

/-- Only where the gap below is half as wide can a number below a power of two be rounded to it. -/
theorem Rounds.pow_le_of_full (hfull : 2 ^ fractionBits ≤ b.mantissa) (h : b.Rounds q) :
    2 ^ (51 + b.exponent) ≤ q ∧ (q < 2 ^ (52 + b.exponent) → b.mantissa = 2 ^ fractionBits) := by
  have hp := two_zpow_pos b.exponent
  have hr := b.reachBelow_le
  have hm : (2 ^ 52 : ℚ) ≤ b.mantissa := by exact_mod_cast hfull
  have hpow : ∀ k : Nat, (2 : ℚ) ^ ((k : Int) + b.exponent) = 2 ^ k * 2 ^ b.exponent := fun k => by
    rw [zpow_add₀ (by norm_num), zpow_natCast]
  constructor
  · calc (2 : ℚ) ^ (51 + b.exponent) = 2 ^ 51 * 2 ^ b.exponent := hpow 51
      _ ≤ (b.mantissa - b.reachBelow) * 2 ^ b.exponent := by
        apply mul_le_mul_of_nonneg_right _ (le_of_lt hp)
        linarith
      _ ≤ q := h.low_le
  · intro hq
    have hlt : (b.mantissa - b.reachBelow) * 2 ^ b.exponent < 2 ^ 52 * 2 ^ b.exponent :=
      lt_of_le_of_lt h.low_le (lt_of_lt_of_eq hq (hpow 52))
    have hlt' : (b.mantissa : ℚ) < 2 ^ 52 + 1 := by
      have := lt_of_mul_lt_mul_right hlt (le_of_lt hp)
      linarith
    have hlt'' : b.mantissa < 2 ^ 52 + 1 := by exact_mod_cast hlt'
    unfold fractionBits at *
    omega

/-- The exponent that rounding aims at is the exponent of the result, or
one less where the exact number lies just below a power of two. -/
theorem Rounds.targetExponent (hb : b.Canonical) {m : Nat} {e : Int} {y : ℚ}
    (hy : m ≤ y ∧ y < m + 1) (he : e ≤ Format.binary64.targetExponent (totalExponent m e))
    (h : b.Rounds (y * 2 ^ e)) :
    Format.binary64.targetExponent (totalExponent m e) = b.exponent
      ∨ Format.binary64.targetExponent (totalExponent m e) = b.exponent - 1
        ∧ b.nearBelow ∧ y * 2 ^ e < 2 ^ (52 + b.exponent) := by
  have hleast : -1074 ≤ b.exponent := hb.least
  have hlt := lt_two_zpow_totalExponent (e := e) hy.2
  have hge := fun h0 => two_zpow_totalExponent_le (e := e) h0 hy.1
  have h53 := h.lt_pow hb
  have hzero : m = 0 → totalExponent m e = 1 + e := fun h0 => by
    rw [h0, totalExponent]
    simp
  rw [targetExponent_eq] at he ⊢
  have hupper : m ≠ 0 → totalExponent m e ≤ 53 + b.exponent := fun h0 => by
    have := two_zpow_lt (lt_of_le_of_lt (hge h0) h53)
    omega
  by_cases hE : b.exponent = -1074
  · left
    by_cases h0 : m = 0
    · have := hzero h0
      omega
    · have := hupper h0
      omega
  have hfull : 2 ^ fractionBits ≤ b.mantissa := hb.full.resolve_right hE
  obtain ⟨h51, hpower⟩ := h.pow_le_of_full hfull
  have ht51 := two_zpow_lt (lt_of_le_of_lt h51 hlt)
  have h0 : m ≠ 0 := fun h0 => by
    have := hzero h0
    omega
  have ht53 := hupper h0
  by_cases h52 : y * 2 ^ e < 2 ^ (52 + b.exponent)
  · right
    have ht52 := two_zpow_lt (lt_of_le_of_lt (hge h0) h52)
    refine ⟨by omega, ?_, h52⟩
    exact nearBelow_iff.mpr ⟨hpower h52, hE⟩
  · left
    have ht52 := two_zpow_lt (lt_of_le_of_lt (not_lt.mp h52) hlt)
    omega

theorem Rounds.low_half (h : b.Rounds q) :
    (b.mantissa : ℚ) - 1 / 2 < q / 2 ^ b.exponent
      ∨ b.mantissa % 2 = 0 ∧ (b.mantissa : ℚ) - 1 / 2 = q / 2 ^ b.exponent := by
  have hp := two_zpow_pos b.exponent
  rw [lt_div_iff₀ hp, eq_div_iff (ne_of_gt hp)]
  rcases lt_or_eq_of_le b.reachBelow_le with hr | hr
  · refine Or.inl (lt_of_lt_of_le ?_ h.low_le)
    apply mul_lt_mul_of_pos_right _ hp
    linarith
  · rw [← hr]
    exact h.low

theorem Rounds.high_half (h : b.Rounds q) :
    q / 2 ^ b.exponent < (b.mantissa : ℚ) + 1 / 2
      ∨ b.mantissa % 2 = 0 ∧ q / 2 ^ b.exponent = (b.mantissa : ℚ) + 1 / 2 := by
  have hp := two_zpow_pos b.exponent
  rw [div_lt_iff₀ hp, div_eq_iff (ne_of_gt hp)]
  exact h.high

/-- Just below a power of two the last place is worth half as much. -/
theorem Rounds.low_pow (hbelow : b.nearBelow) (h : b.Rounds q) :
    (2 ^ 53 : Nat) - 1 / 2 ≤ q / 2 ^ (b.exponent - 1) := by
  have hm := (nearBelow_iff.mp hbelow).1
  have hlow := h.low_le
  rw [reachBelow, if_pos hbelow, hm] at hlow
  have hp := two_zpow_pos (b.exponent - 1)
  have hstep : (2 : ℚ) ^ b.exponent = 2 * 2 ^ (b.exponent - 1) := by
    rw [zpow_sub₀ (by norm_num)]
    ring
  rw [hstep] at hlow
  rw [le_div_iff₀ hp]
  calc ((2 ^ 53 : Nat) - 1 / 2 : ℚ) * 2 ^ (b.exponent - 1)
      = ((2 ^ 52 : Nat) - 1 / 4) * (2 * 2 ^ (b.exponent - 1)) := by push_cast; ring
    _ ≤ q := hlow

theorem lt_pow_succ (hq : q < 2 ^ (52 + b.exponent)) : q / 2 ^ (b.exponent - 1) < (2 ^ 53 : Nat) := by
  have hp := two_zpow_pos (b.exponent - 1)
  rw [div_lt_iff₀ hp]
  calc q < 2 ^ (52 + b.exponent) := hq
    _ = (2 ^ 53 : Nat) * 2 ^ (b.exponent - 1) := by
      rw [show 52 + b.exponent = ((53 : Nat) : Int) + (b.exponent - 1) by push_cast; ring,
        zpow_add₀ (by norm_num), zpow_natCast]
      push_cast
      ring

end Binary

/-- Rounding an approximation of an exact number gives the number whose
interval the exact number lies in, zero among them. -/
theorem roundWithAccuracy_of_rounds {b : Binary} (hb : b.Canonical) {m : Nat} {e : Int}
    {acc : Accuracy} {y : ℚ} (hy : Stands (.ofMantissaAndAccuracy m acc) y)
    (he : e ≤ Format.binary64.targetExponent (totalExponent m e)) (h : b.Rounds (y * 2 ^ e)) :
    roundWithAccuracy Format.binary64 (signOf b.negative) m e acc = b.unpacked := by
  have htarget := h.targetExponent hb hy.quotient he
  generalize hT : Format.binary64.targetExponent (totalExponent m e) = T at he htarget
  generalize hk : (T - e).toNat = k
  have hek : e + (k : Int) = T := by omega
  have hshift := hy.shiftRight k
  have hq : y / 2 ^ k = y * 2 ^ e / 2 ^ T := by
    rw [← hek, zpow_add₀ (by norm_num), zpow_natCast]
    have := Binary.two_zpow_pos e
    field_simp
  unfold roundWithAccuracy
  rw [shiftToTargetExponent_eq, hT, hk, hek]
  rw [hq] at hshift
  have hleast : -1074 ≤ b.exponent := hb.least
  rcases htarget with rfl | ⟨rfl, hbelow, h52⟩
  · have hp := Binary.two_zpow_pos b.exponent
    have hround := hshift.rounded h.low_half h.high_half
    dsimp only
    rw [hround, shiftToTargetExponent_of_lt hb.lt hleast]
    rfl
  · have hnext : -1074 < b.exponent ∧ b.mantissa = 2 ^ 52 := by
      obtain ⟨hm, he⟩ := Binary.nearBelow_iff.mp hbelow
      exact ⟨by omega, hm⟩
    have hlow := h.low_pow hbelow
    have hhigh := Binary.lt_pow_succ h52
    have hround := hshift.rounded (n := 2 ^ 53)
      ((lt_or_eq_of_le hlow).imp id fun h => ⟨by decide, h⟩) (Or.inl (by linarith))
    dsimp only
    rw [hround, shiftToTargetExponent_pow (by omega), dif_neg (by dsimp only; decide),
      Binary.unpacked_of_ne_zero (by omega)]
    exact finite_congr _ rfl hnext.2.symm (by omega)

end MetricRelay.Number
