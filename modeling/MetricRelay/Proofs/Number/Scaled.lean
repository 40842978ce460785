import MetricRelay.Number.Scaled
import MetricRelay.Proofs.Number.Range
import MetricRelay.Proofs.Number.Shortest

/-!
# Which computed numerals are in range

A numeral that is computed in floating point is rounded when its digits
are made a number, when the power of ten is made one, and when the two are
multiplied. The first two can each carry the product up by half a unit of
its last place, so that all but the greatest of the numbers in range stay
so: those up to `Binary.reach` (`isFinite_shifted`). Divisions make
nothing greater. Where digits and power of ten are both exact, the one
operation left rounds to the nearest (`Numeral.scaled_of_short`).
-/

namespace MetricRelay.Number

namespace Binary

/-- A value without a minus. -/
structure Unsigned (b : Binary) : Prop where
  canonical : b.Canonical
  sign : b.negative = false

variable {b c : Binary} {q r : ℚ}

theorem exists_unsigned (hq : 0 ≤ q) (h : q < overflow) : ∃ b : Binary, b.Unsigned ∧ b.Rounds q := by
  obtain ⟨b, hb, hs, hrounds⟩ := exists_rounds hq h false
  exact ⟨b, ⟨hb, hs⟩, hrounds⟩

theorem Unsigned.isFinite (hb : b.Unsigned) : b.toFloat.isFinite :=
  isFinite_toFloat hb.canonical

theorem Unsigned.ofScientific (hb : b.Unsigned) {n k : Nat} (h : b.Rounds (n * 10 ^ k)) :
    Float.ofScientific n false k = b.toFloat := by
  have hnonneg : decide ((k : Int) < 0) = false := decide_eq_false (by omega)
  have hread := ofScientific_of_rounds (m := n) (e := k) hb.canonical hb.sign (by simpa using h)
  rwa [hnonneg, Int.natAbs_natCast] at hread

theorem Unsigned.ofNat (hb : b.Unsigned) {n : Nat} (h : b.Rounds n) :
    Float.ofNat n = b.toFloat :=
  hb.ofScientific (k := 0) (by simpa using h)

theorem Unsigned.powerOfTen (hb : b.Unsigned) {k : Nat} (h : b.Rounds (10 ^ k)) :
    powerOfTen k = b.toFloat :=
  hb.ofScientific (n := 1) (by simpa using h)

/-! ## Two roundings -/

/-- The greatest number that is in range also when it is rounded up in two
factors. -/
def reach : ℚ := (2 ^ 53 - 5 / 2) * 2 ^ (971 : Int)

theorem reach_lt_overflow : reach < overflow :=
  mul_lt_mul_of_pos_right (by norm_num) (two_zpow_pos 971)

theorem natCast_le_reach {n : Nat} (h : n ≤ (2 ^ 53 - 3) * 2 ^ 971) : (n : ℚ) ≤ reach := by
  have hcast : (((2 ^ 53 - 3) * 2 ^ 971 : Nat) : ℚ) = (2 ^ 53 - 3) * 2 ^ (971 : Int) := by
    rw [Nat.cast_mul, Nat.cast_pow, Nat.cast_ofNat, ← zpow_natCast]
    norm_num
  calc (n : ℚ) ≤ ((2 ^ 53 - 3) * 2 ^ 971 : Nat) := by exact_mod_cast h
    _ = (2 ^ 53 - 3) * 2 ^ (971 : Int) := hcast
    _ ≤ reach := mul_le_mul_of_nonneg_right (by norm_num) (two_zpow_pos 971).le

theorem reach_lt_pow : reach < 10 ^ (greatestPower + 1) := by
  have hpow : 2 ^ 53 * 2 ^ 971 < 10 ^ (greatestPower + 1) := by decide +kernel
  calc reach < 2 ^ 53 * 2 ^ (971 : Int) := mul_lt_mul_of_pos_right (by norm_num) (two_zpow_pos 971)
    _ = ((2 ^ 53 * 2 ^ 971 : Nat) : ℚ) := by
      rw [Nat.cast_mul, Nat.cast_pow, Nat.cast_pow, Nat.cast_ofNat, ← zpow_natCast]
      rfl
    _ < ((10 ^ (greatestPower + 1) : Nat) : ℚ) := by exact_mod_cast hpow
    _ = 10 ^ (greatestPower + 1) := by rw [Nat.cast_pow, Nat.cast_ofNat]

/-- A number that is not below one is rounded up by half a unit of its last
place at most. -/
theorem Rounds.magnitude_le (hb : b.Canonical) (h : b.Rounds q) (hq : 1 ≤ q) :
    b.magnitude * (2 ^ 53 - 1) ≤ q * 2 ^ 53 := by
  have hp := two_zpow_pos b.exponent
  have hr := b.reachBelow_le
  have hm : (2 ^ 52 : ℚ) ≤ b.mantissa := by exact_mod_cast (h.full_of_one_le hb hq).1
  calc b.magnitude * (2 ^ 53 - 1) = b.mantissa * (2 ^ 53 - 1) * 2 ^ b.exponent := by
        rw [magnitude]
        ring
    _ ≤ (b.mantissa - b.reachBelow) * 2 ^ 53 * 2 ^ b.exponent := by
        refine mul_le_mul_of_nonneg_right ?_ hp.le
        linarith
    _ = (b.mantissa - b.reachBelow) * 2 ^ b.exponent * 2 ^ 53 := by ring
    _ ≤ q * 2 ^ 53 := mul_le_mul_of_nonneg_right h.low_le (by norm_num)

/-- The product of two rounded factors is in range where the exact product
is within reach. -/
theorem Rounds.mul_lt_overflow (hb : b.Canonical) (hc : c.Canonical) (hbq : b.Rounds q)
    (hcr : c.Rounds r) (hq : 1 ≤ q) (hr : 1 ≤ r) (h : q * r ≤ reach) :
    b.magnitude * c.magnitude < overflow := by
  have hc0 : 0 ≤ c.magnitude := zero_le_one.trans (hcr.full_of_one_le hc hr).2
  have hproduct : b.magnitude * c.magnitude * (2 ^ 53 - 1) ^ 2 ≤ q * r * (2 ^ 53) ^ 2 :=
    calc b.magnitude * c.magnitude * (2 ^ 53 - 1) ^ 2
        = b.magnitude * (2 ^ 53 - 1) * (c.magnitude * (2 ^ 53 - 1)) := by ring
      _ ≤ q * 2 ^ 53 * (r * 2 ^ 53) := mul_le_mul (hbq.magnitude_le hb hq) (hcr.magnitude_le hc hr)
          (mul_nonneg hc0 (by norm_num)) (by positivity)
      _ = q * r * (2 ^ 53) ^ 2 := by ring
  have hroom : reach * (2 ^ 53) ^ 2 < overflow * (2 ^ 53 - 1) ^ 2 := by
    have hp := two_zpow_pos 971
    unfold reach overflow
    rw [mul_right_comm, mul_right_comm (2 ^ 53 - 1 / 2 : ℚ)]
    exact mul_lt_mul_of_pos_right (by norm_num) hp
  have hlt : b.magnitude * c.magnitude * (2 ^ 53 - 1) ^ 2 < overflow * (2 ^ 53 - 1) ^ 2 :=
    hproduct.trans_lt ((mul_le_mul_of_nonneg_right h (by norm_num)).trans_lt hroom)
  exact lt_of_mul_lt_mul_right hlt (by norm_num)

theorem Unsigned.isFinite_mul (hb : b.Unsigned) (hc : c.Unsigned) (hbq : b.Rounds q)
    (hcr : c.Rounds r) (hq : 1 ≤ q) (hr : 1 ≤ r) (h : q * r ≤ reach) :
    (b.toFloat * c.toFloat).isFinite := by
  have hlt := hbq.mul_lt_overflow hb.canonical hc.canonical hcr hq hr h
  have hb1 := (hbq.full_of_one_le hb.canonical hq).2
  have hc0 := one_pos.trans_le (hcr.full_of_one_le hc.canonical hr).2
  have hproduct := mul_nonneg (zero_le_one.trans hb1) hc0.le
  obtain ⟨d, hd, hrounds⟩ := exists_unsigned hproduct hlt
  have hs : signOf b.negative * signOf c.negative = signOf d.negative := by
    rw [hb.sign, hc.sign, hd.sign]
    rfl
  rw [mul_toFloat_of_rounds hb.canonical hc.canonical hd.canonical hs hb1 hc0 hrounds]
  exact hd.isFinite

/-! ## Divisions -/

theorem Unsigned.exists_div (hb : b.Unsigned) (hc : c.Unsigned) (hc1 : 1 ≤ c.magnitude) :
    ∃ d : Binary, d.Unsigned ∧ b.toFloat / c.toFloat = d.toFloat := by
  have hc0 := one_pos.trans_le hc1
  by_cases hb0 : b.mantissa = 0
  · refine ⟨.zero false, ⟨canonical_zero false, rfl⟩, ?_⟩
    rw [div_toFloat hb.canonical hc.canonical, unpacked_of_zero hb0,
      unpacked_of_ne_zero (mantissa_ne_zero hc0), hb.sign, hc.sign]
    rfl
  have hpos : 0 < b.magnitude := by
    have hmantissa : (0 : ℚ) < b.mantissa := by exact_mod_cast Nat.pos_of_ne_zero hb0
    exact mul_pos hmantissa (two_zpow_pos _)
  have hlt : b.magnitude / c.magnitude < overflow :=
    (div_le_self hpos.le hc1).trans_lt (b.rounds_magnitude.lt_overflow hb.canonical)
  obtain ⟨d, hd, hrounds⟩ := exists_unsigned (div_nonneg hpos.le hc0.le) hlt
  have hs : signOf b.negative / signOf c.negative = signOf d.negative := by
    rw [hb.sign, hc.sign, hd.sign]
    rfl
  exact ⟨d, hd, div_toFloat_of_rounds hb.canonical hc.canonical hd.canonical hs hpos hc0 hrounds⟩

end Binary

open Binary

theorem exists_powerOfTen {k : Nat} (hk : k ≤ greatestPower) :
    ∃ b : Binary, b.Unsigned ∧ b.Rounds (10 ^ k) ∧ powerOfTen k = b.toFloat := by
  have hgreatest : 10 ^ greatestPower ≤ (2 ^ 53 - 3) * 2 ^ 971 := by decide +kernel
  have hreach := natCast_le_reach ((Nat.pow_le_pow_right (by decide) hk).trans hgreatest)
  push_cast at hreach
  obtain ⟨b, hb, hrounds⟩ := exists_unsigned (by positivity) (hreach.trans_lt reach_lt_overflow)
  exact ⟨b, hb, hrounds, hb.powerOfTen hrounds⟩

theorem exists_ofNat {n : Nat} (hn : n < 2 ^ 64) :
    ∃ b : Binary, b.Unsigned ∧ b.Rounds n ∧ Float.ofNat n = b.toFloat := by
  have hreach := natCast_le_reach (hn.le.trans (by decide +kernel))
  obtain ⟨b, hb, hrounds⟩ := exists_unsigned (Nat.cast_nonneg n) (hreach.trans_lt reach_lt_overflow)
  exact ⟨b, hb, hrounds, hb.ofNat hrounds⟩

theorem exists_quotient {b : Binary} (hb : b.Unsigned) {k : Nat} (hk : k ≤ greatestPower) :
    ∃ d : Binary, d.Unsigned ∧ b.toFloat / powerOfTen k = d.toFloat := by
  obtain ⟨c, hc, hrounds, hpower⟩ := exists_powerOfTen hk
  rw [hpower]
  exact hb.exists_div hc (hrounds.full_of_one_le hc.canonical (one_le_pow₀ (by norm_num))).2

/-- A number that is divided by powers of ten stays in range. -/
theorem isFinite_divided {steps : Nat} {b : Binary} (hb : b.Unsigned) {places : Nat}
    (h : places ≤ (steps + 1) * greatestPower) : (divided steps b.toFloat places).isFinite := by
  induction steps generalizing b places with
  | zero =>
    obtain ⟨d, hd, heq⟩ := exists_quotient hb (k := places) (by omega)
    rw [divided, heq]
    exact hd.isFinite
  | succ steps ih =>
    rw [divided]
    split
    · exact hb.isFinite
    · obtain ⟨d, hd, heq⟩ := exists_quotient hb le_rfl
      rw [heq]
      exact ih hd (by rw [Nat.succ_mul] at h; omega)

theorem le_greatestPower {q : ℚ} {k : Nat} (hq : 1 ≤ q) (h : q * 10 ^ k ≤ reach) :
    k ≤ greatestPower := by
  by_contra hgt
  have hpow : (10 : ℚ) ^ (greatestPower + 1) ≤ 10 ^ k := pow_le_pow_right₀ (by norm_num) (by omega)
  have hle : (10 : ℚ) ^ k ≤ q * 10 ^ k := le_mul_of_one_le_left (by positivity) hq
  exact absurd reach_lt_pow (not_lt.mpr ((hpow.trans hle).trans h))

/-- Digits that fit, with a power of ten behind them, are in range where the
exact number is within reach. -/
theorem isFinite_shifted {n : Nat} {e : Int} (hn : n < 2 ^ 64) (h : n * 10 ^ e ≤ reach) :
    (shifted (Float.ofNat n) e).isFinite := by
  obtain ⟨b, hb, hbn, hofNat⟩ := exists_ofNat hn
  unfold shifted
  rw [hofNat]
  by_cases he : e < 0
  · rw [if_pos he]
    refine isFinite_divided hb ?_
    unfold greatestPower
    omega
  rw [if_neg he]
  split
  · exact hb.isFinite
  next hzero =>
  have hn1 : (1 : ℚ) ≤ n := by
    have hn0 : n ≠ 0 := by
      rintro rfl
      exact hzero (hofNat ▸ rfl)
    exact_mod_cast Nat.pos_of_ne_zero hn0
  obtain ⟨k, rfl⟩ : ∃ k : Nat, e = k := ⟨e.toNat, by omega⟩
  rw [zpow_natCast] at h
  have hk := le_greatestPower hn1 h
  obtain ⟨c, hc, hck, hpower⟩ := exists_powerOfTen hk
  rw [if_neg (by exact_mod_cast not_lt.mpr hk), Int.toNat_natCast, hpower]
  exact hb.isFinite_mul hc hbn hck hn1 (one_le_pow₀ (by norm_num)) h

theorem isFinite_shifted_of_nonpos {n : Nat} {e : Int} (hn : n < 2 ^ 64) (he : e ≤ 0) :
    (shifted (Float.ofNat n) e).isFinite := by
  refine isFinite_shifted hn ?_
  calc (n : ℚ) * 10 ^ e ≤ n := mul_le_of_le_one_right (Nat.cast_nonneg n)
        (zpow_le_one_of_nonpos₀ (by norm_num) he)
    _ ≤ reach := natCast_le_reach (hn.le.trans (by decide +kernel))

/-! ## Shortest decimals -/

/-- Only what is rounded to one of the two greatest values is beyond
reach. -/
theorem Binary.Rounds.le_reach {b : Binary} (hb : b.Canonical) {q : ℚ} (h : b.Rounds q)
    (hlow : b.exponent < 971 ∨ b.mantissa + 3 ≤ 2 ^ 53) : q ≤ reach := by
  have hm : (b.mantissa : ℚ) + 1 ≤ 2 ^ 53 := by exact_mod_cast hb.lt
  refine h.le_high.trans ?_
  rcases hlow with hlt | hle
  · calc ((b.mantissa : ℚ) + 1 / 2) * 2 ^ b.exponent ≤ (2 ^ 53 - 1 / 2) * 2 ^ (971 - 1 : Int) :=
          mul_le_mul (by linarith) (zpow_le_zpow_right₀ (by norm_num) (by omega))
            (two_zpow_pos _).le (by norm_num)
      _ = (2 ^ 52 - 1 / 4) * 2 ^ (971 : Int) := by
          rw [zpow_sub_one₀ (by norm_num)]
          ring
      _ ≤ reach := mul_le_mul_of_nonneg_right (by norm_num) (two_zpow_pos 971).le
  · have hm : (b.mantissa : ℚ) + 3 ≤ 2 ^ 53 := by exact_mod_cast hle
    exact mul_le_mul (by linarith) (zpow_le_zpow_right₀ (by norm_num) hb.greatest) (two_zpow_pos _).le
      (by norm_num)

theorem isFinite_shifted_greatest : ∀ negative, ∀ k : Fin 2,
    let d := (Binary.mk negative (2 ^ 53 - 2 + k) 971).shortest .toEven
    (shifted (Float.ofNat d.digits) d.exponent).isFinite := by
  decide +kernel

/-- The shortest decimal of a number is in range when it is computed, also
that of the greatest one. -/
theorem isFinite_shifted_shortest {b : Binary} (hb : b.Canonical) :
    let d := b.shortest .toEven
    (shifted (Float.ofNat d.digits) d.exponent).isFinite := by
  have hdigits : (b.shortest .toEven).digits < 2 ^ 64 :=
    (digits_shortest_le hb .toEven).trans_lt (by decide)
  by_cases hb0 : b.mantissa = 0
  · refine isFinite_shifted hdigits ?_
    unfold shortest
    rw [if_pos hb0, Nat.cast_zero, zero_mul]
    exact mul_nonneg (by norm_num) (two_zpow_pos 971).le
  by_cases hlow : b.exponent < 971 ∨ b.mantissa + 3 ≤ 2 ^ 53
  · exact isFinite_shifted hdigits ((rounds_shortest hb hb0 .toEven).le_reach hb hlow)
  · obtain ⟨negative, mantissa, exponent⟩ := b
    obtain ⟨hlt, -, hgreatest, -⟩ := hb
    dsimp only at hlt hgreatest hlow
    obtain rfl : exponent = 971 := by omega
    rcases (by omega : mantissa = 2 ^ 53 - 2 ∨ mantissa = 2 ^ 53 - 1) with rfl | rfl
    · exact isFinite_shifted_greatest negative 0
    · exact isFinite_shifted_greatest negative 1

/-! ## Numerals -/

theorem isFinite_neg {x : Float} (h : x.isFinite) : (-x).isFinite := by
  have hb := canonical_ofFloat h
  rw [← toFloat_ofFloat h, neg_toFloat hb]
  exact isFinite_toFloat ⟨hb.lt, hb.least, hb.greatest, hb.full⟩

namespace Numeral

variable {n : Numeral}

theorem surplus_of_lt {n : Nat} (h : n < 2 ^ 64) : surplus n = 0 := if_pos h

/-- Nothing is dropped of digits that fit. -/
theorem kept_of_lt (h : n.mantissa < 2 ^ 64) : n.dropped = 0 ∧ n.kept = n.mantissa := by
  have hdropped : n.dropped = 0 := surplus_of_lt ((Nat.div_le_self _ _).trans_lt h)
  refine ⟨hdropped, ?_⟩
  unfold kept
  rw [hdropped]
  show _ / 10 ^ 0 * _ + _ = _
  rw [Nat.pow_zero, Nat.div_one, Nat.div_add_mod']

theorem scaled_of_lt (h : n.mantissa < 2 ^ 64) :
    n.scaled = if n.negative then -shifted (Float.ofNat n.mantissa) (n.exponent - n.places)
      else shifted (Float.ofNat n.mantissa) (n.exponent - n.places) := by
  obtain ⟨hdropped, hkept⟩ := kept_of_lt h
  have hsignificand : n.significand = n.mantissa := by
    unfold significand
    rw [hkept, surplus_of_lt h]
    exact Nat.div_one _
  have hscale : n.scale = n.exponent - n.places := by
    unfold scale
    rw [hkept, surplus_of_lt h, hdropped]
    omega
  unfold scaled
  rw [hsignificand, hscale]

theorem isFinite_scaled_of_lt (h : n.mantissa < 2 ^ 64)
    (hfinite : (shifted (Float.ofNat n.mantissa) (n.exponent - n.places)).isFinite) :
    n.scaled.isFinite := by
  rw [scaled_of_lt h]
  split
  · exact isFinite_neg hfinite
  · exact hfinite

theorem isFinite_scaled_of_le (h : n.mantissa < 2 ^ 64) (hreach : n.magnitude ≤ reach) :
    n.scaled.isFinite :=
  isFinite_scaled_of_lt h (isFinite_shifted h hreach)

/-- Beyond reach the roundings may carry a numeral out of range that is
nearest to a number. -/
example : let n : Numeral := ⟨false, 17976931348623158, 16, 308⟩
    n.toFloat.isFinite ∧ ¬ n.scaled.isFinite := by
  decide +kernel

theorem beq_zero {b : Binary} (hb : b.Unsigned) (h : b.mantissa ≠ 0) : (b.toFloat == 0) = false := by
  show (b.toFloat.toModel.unpack.compare (0 : Float).toModel.unpack == some .eq) = false
  rw [unpack_toFloat hb.canonical, unpacked_of_ne_zero h, hb.sign]
  rfl

/-- Digits that are a number exactly, and a power of ten that is one, leave
a single operation to be rounded. -/
theorem shifted_of_short {m : Nat} {e : Int} (hm : m < 2 ^ 53) (he : e.natAbs ≤ 22) :
    shifted (Float.ofNat m) e = Float.ofScientific m (e < 0) e.natAbs := by
  obtain ⟨b, p, hb, hbs, hbm, hp, hps, hpm, hoperands⟩ := exists_operands hm he (e < 0)
  have hofNat : Float.ofNat m = b.toFloat :=
    Unsigned.ofNat ⟨hb, hbs⟩ (hbm ▸ b.rounds_magnitude)
  have hpower : powerOfTen e.natAbs = p.toFloat :=
    Unsigned.powerOfTen ⟨hp, hps⟩ (hpm ▸ p.rounds_magnitude)
  unfold shifted
  by_cases hneg : e < 0
  · have hplaces : (-e).toNat = e.natAbs := by omega
    have hsteps : (e.natAbs - 1) / greatestPower = 0 := Nat.div_eq_of_lt (by unfold greatestPower; omega)
    rw [if_pos hneg]
    dsimp only
    rw [hplaces, hsteps, divided, hofNat, hpower, hoperands, if_pos (decide_eq_true hneg)]
  rw [if_neg hneg]
  by_cases hm0 : m = 0
  · subst hm0
    rw [ofScientific_zero]
    exact ofScientific_zero false 0
  · have hb0 : b.mantissa ≠ 0 := by
      rw [ne_eq, ← magnitude_eq_zero, hbm]
      exact_mod_cast hm0
    have hexponent : e.toNat = e.natAbs := by omega
    rw [hofNat, beq_zero ⟨hb, hbs⟩ hb0, if_neg Bool.false_ne_true, if_neg, hexponent, hpower,
      hoperands, if_neg (by simpa using hneg)]
    unfold greatestPower
    omega

theorem scaled_of_short (h : n.mantissa < 2 ^ 53) (hscale : (n.exponent - n.places).natAbs ≤ 22) :
    n.scaled = n.toFloat := by
  rw [scaled_of_lt (h.trans (by decide)), shifted_of_short h hscale]
  rfl

/-- A zero behind the point makes the digits of an integer too many. -/
example : let n : Numeral := ⟨false, 90071992547409930, 1, 0⟩
    n.toFloat = 9007199254740992 ∧ n.scaled = 9007199254740994 := by
  decide +kernel

end Numeral

end MetricRelay.Number
