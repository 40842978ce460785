import MetricRelay.Proofs.Number.Decimals

/-!
# Exact integers

The integers up to `2 ^ 53` either way are floating point numbers
(`exact_ofInt64`), are their own whole parts (`truncate_ofInt64`), and
sums of them that stay in that range are computed without rounding
(`ofInt_add`). `Number.exact` is the value of a number as a rational, with
which these are stated.
-/

namespace MetricRelay.Number

open Float.Model Float.Model.UnpackedFloat

/-- The exact value of `x`; meaningful for finite `x` only. -/
def exact (x : Float) : ℚ :=
  let b := Binary.ofFloat x
  if b.negative then -b.magnitude else b.magnitude

/-- `n` is an integer that fits the significand. -/
def Fits (n : Int) : Prop := n.natAbs ≤ 2 ^ 53

instance (n : Int) : Decidable (Fits n) := inferInstanceAs (Decidable (_ ≤ _))

namespace Binary

/-- The value is the integer `n`; zero has no minus. -/
structure IsInt (b : Binary) (n : Int) : Prop where
  canonical : b.Canonical
  sign : b.negative = decide (n < 0)
  magnitude : b.magnitude = n.natAbs

theorem exists_isInt {n : Int} (hn : Fits n) : ∃ b : Binary, b.IsInt n := by
  obtain ⟨b, hb, hs, hm⟩ := exists_canonical_natural hn (decide (n < 0))
  exact ⟨b, hb, hs, hm⟩

variable {b c d : Binary} {m n : Int}

theorem IsInt.exact (h : b.IsInt n) : exact b.toFloat = n := by
  unfold Number.exact
  dsimp only
  rw [ofFloat_toFloat h.canonical, h.sign, h.magnitude, Nat.cast_natAbs, Int.cast_abs]
  by_cases hn : n < 0
  · rw [if_pos (decide_eq_true hn), abs_of_neg (by exact_mod_cast hn), neg_neg]
  · rw [if_neg (by simpa using hn), abs_of_nonneg (by exact_mod_cast not_lt.mp hn)]

/-- Brought to a smaller exponent, the signed significand still has the value. -/
theorem IsInt.apply (h : b.IsInt n) (k : Nat) :
    (((signOf b.negative).apply ((b.mantissa <<< k : Nat) : Int) : Int) : ℚ)
      * 2 ^ (b.exponent - k) = n := by
  have hvalue : ((b.mantissa <<< k : Nat) : ℚ) * 2 ^ (b.exponent - k) = |(n : ℚ)| := by
    rw [shiftLeft_mul_zpow, ← Binary.magnitude, h.magnitude, Nat.cast_natAbs, Int.cast_abs]
  rw [h.sign]
  by_cases hn : n < 0
  · rw [decide_eq_true hn]
    show ((-((b.mantissa <<< k : Nat) : Int) : Int) : ℚ) * _ = _
    rw [Int.cast_neg, Int.cast_natCast, neg_mul, hvalue, abs_of_neg (by exact_mod_cast hn), neg_neg]
  · rw [decide_eq_false hn]
    show ((((b.mantissa <<< k : Nat) : Int) : Int) : ℚ) * _ = _
    rw [Int.cast_natCast, hvalue, abs_of_nonneg (by exact_mod_cast not_lt.mp hn)]

theorem IsInt.normalize {m e : Int} (h : b.IsInt n) (hm : (m : ℚ) * 2 ^ e = n) :
    Float.ofModel (.pack (UnpackedFloat.normalize Format.binary64 m e .positive)) = b.toFloat := by
  have hp := two_zpow_pos e
  have hsign : m < 0 ↔ n < 0 := by
    rw [← Int.cast_lt_zero (R := ℚ), ← Int.cast_lt_zero (R := ℚ) (n := n), ← hm]
    exact ⟨fun h => mul_neg_of_neg_of_pos h hp,
      fun h => lt_of_mul_lt_mul_right (by rwa [zero_mul]) hp.le⟩
  refine normalize_eq h.canonical ?_ ?_
  · rw [h.sign]
    exact decide_eq_decide.mpr hsign.symm
  · rw [h.magnitude, Nat.cast_natAbs, Nat.cast_natAbs, Int.cast_abs, Int.cast_abs, ← hm, abs_mul,
      abs_of_pos hp]

theorem IsInt.eq (hb : b.IsInt n) (hc : c.IsInt n) : b = c :=
  eq_of_magnitude_eq hb.canonical hc.canonical (hb.sign.trans hc.sign.symm)
    (hb.magnitude.trans hc.magnitude.symm)

theorem IsInt.whole (h : b.IsInt n) : b.whole = n.natAbs := by
  have hmantissa : n.natAbs * 2 ^ (-b.exponent).toNat = b.mantissa * 2 ^ b.exponent.toNat := by
    have hp : ((2 ^ (-b.exponent).toNat : Nat) : ℚ) ≠ 0 := by positivity
    have hratio := b.magnitude_eq_ratio
    rw [h.magnitude, eq_div_iff hp] at hratio
    exact_mod_cast hratio
  unfold Binary.whole
  split
  · next hexponent =>
    have hzero : (-b.exponent).toNat = 0 := by omega
    rw [hzero, pow_zero, mul_one] at hmantissa
    exact hmantissa.symm
  · next hexponent =>
    have hzero : b.exponent.toNat = 0 := by omega
    rw [hzero, pow_zero, mul_one] at hmantissa
    rw [← hmantissa]
    exact Nat.mul_div_cancel _ (Nat.two_pow_pos _)

theorem IsInt.mantissa_eq_zero (h : b.IsInt n) : b.mantissa = 0 ↔ n = 0 := by
  rw [← magnitude_eq_zero, h.magnitude, Nat.cast_eq_zero, Int.natAbs_eq_zero]

/-- The sum of two integers is computed without rounding. -/
theorem IsInt.add (hb : b.IsInt m) (hc : c.IsInt n) (hd : d.IsInt (m + n)) :
    b.toFloat + c.toFloat = d.toFloat := by
  have hsum : b.toFloat + c.toFloat
      = .ofModel (.pack (UnpackedFloat.add Format.binary64 b.unpacked c.unpacked)) := by
    rw [← unpack_toFloat hb.canonical, ← unpack_toFloat hc.canonical]
    rfl
  rw [hsum]
  by_cases hb0 : b.mantissa = 0
  · obtain rfl := hb.mantissa_eq_zero.mp hb0
    rw [Int.zero_add] at hd
    obtain rfl := hd.eq hc
    rw [unpacked_of_zero hb0, hb.sign]
    by_cases hc0 : d.mantissa = 0
    · obtain rfl := hc.mantissa_eq_zero.mp hc0
      rw [toFloat, unpacked_of_zero hc0, hc.sign]
      rfl
    · rw [toFloat, unpacked_of_ne_zero hc0]
      rfl
  by_cases hc0 : c.mantissa = 0
  · obtain rfl := hc.mantissa_eq_zero.mp hc0
    rw [Int.add_zero] at hd
    obtain rfl := hd.eq hb
    rw [toFloat, unpacked_of_zero hc0, unpacked_of_ne_zero hb0]
    rfl
  rw [unpacked_of_ne_zero hb0, unpacked_of_ne_zero hc0]
  refine hd.normalize ?_
  generalize hk : (b.exponent - min b.exponent c.exponent).toNat = k
  generalize hl : (c.exponent - min b.exponent c.exponent).toNat = l
  have hbe : min b.exponent c.exponent = b.exponent - k := by omega
  have hce : min b.exponent c.exponent = c.exponent - l := by omega
  rw [Int.cast_add, Int.cast_add, add_mul]
  nth_rewrite 1 [hbe]
  rw [hce, hb.apply k, hc.apply l]

end Binary

/-! ## Conversions -/

/-- An integer is converted to the value in whose interval it lies. -/
theorem ofInt_of_rounds {b : Binary} {n : Int} (hb : b.Canonical)
    (hs : b.negative = decide (n < 0)) (h : b.Rounds n.natAbs) : Float.ofInt n = b.toFloat := by
  have hnat : ∀ {c : Binary} {k : Nat}, c.Canonical → c.negative = false → c.Rounds k →
      Float.ofNat k = c.toFloat := by
    intro c k hc hs hk
    rw [← mul_one (k : ℚ)] at hk
    exact ofScientific_of_rounds (e := 0) hc hs hk
  cases n with
  | ofNat n => exact hnat hb (hs.trans (decide_eq_false (Int.not_lt.mpr (Int.natCast_nonneg n)))) h
  | negSucc n =>
    show -Float.ofNat (Int.negSucc n).natAbs = _
    have hopp : b.opposite.Canonical := ⟨hb.lt, hb.least, hb.greatest, hb.full⟩
    have hsign : b.opposite.negative = false := by
      show (!b.negative) = _
      rw [hs, decide_eq_true (Int.negSucc_lt_zero n)]
      rfl
    rw [hnat hopp hsign ⟨h.low, h.high⟩, neg_toFloat hopp]
    refine congrArg Binary.toFloat ?_
    unfold Binary.opposite
    rw [Bool.not_not]

theorem ofInt_eq {b : Binary} {n : Int} (h : b.IsInt n) : Float.ofInt n = b.toFloat := by
  have hrounds := b.rounds_magnitude
  rw [h.magnitude] at hrounds
  exact ofInt_of_rounds h.canonical h.sign hrounds

theorem ofInt_add {m n : Int} (hm : Fits m) (hn : Fits n) (hsum : Fits (m + n)) :
    Float.ofInt m + Float.ofInt n = Float.ofInt (m + n) := by
  obtain ⟨b, hb⟩ := Binary.exists_isInt hm
  obtain ⟨c, hc⟩ := Binary.exists_isInt hn
  obtain ⟨d, hd⟩ := Binary.exists_isInt hsum
  rw [ofInt_eq hb, ofInt_eq hc, ofInt_eq hd]
  exact hb.add hc hd

theorem exact_ofInt64 {n : Int64} (h : Fits n.toInt) :
    (ofInt64 n).isFinite ∧ exact (ofInt64 n) = n.toInt := by
  obtain ⟨b, hb⟩ := Binary.exists_isInt h
  rw [ofInt64, ofInt_eq hb]
  exact ⟨isFinite_toFloat hb.canonical, hb.exact⟩

theorem truncate_ofInt64 {n : Int64} (h : Fits n.toInt) : truncate (ofInt64 n) = n := by
  obtain ⟨b, hb⟩ := Binary.exists_isInt h
  have hfinite := isFinite_toFloat hb.canonical
  have hsigned : (if b.negative then -(b.whole : Int) else b.whole) = n.toInt := by
    rw [hb.sign, hb.whole]
    by_cases hn : n.toInt < 0
    · rw [decide_eq_true hn, if_pos rfl]
      omega
    · rw [decide_eq_false hn, if_neg Bool.false_ne_true]
      omega
  rw [ofInt64, ofInt_eq hb, truncate, isNaN_of_isFinite hfinite, if_neg Bool.false_ne_true,
    if_pos hfinite, ofFloat_toFloat hb.canonical]
  dsimp only
  rw [hsigned]
  exact Int64.ofIntClamp_toInt n

theorem toInt_sub_of_fits {m n : Int64} (h : Fits (n.toInt - m.toInt)) :
    (n - m).toInt = n.toInt - m.toInt := by
  unfold Fits at h
  rw [Int64.toInt_sub]
  exact Int.bmod_eq_of_le (by omega) (by omega)

theorem toInt_sub_of_sign {m n : Int64}
    (h : 0 ≤ m.toInt ∧ 0 ≤ n.toInt ∨ m.toInt < 0 ∧ n.toInt < 0) :
    (n - m).toInt = n.toInt - m.toInt := by
  have hm := m.le_toInt
  have hn := n.le_toInt
  have hm' := m.toInt_lt
  have hn' := n.toInt_lt
  rw [Int64.toInt_sub]
  exact Int.bmod_eq_of_le (by omega) (by omega)

/-- Adding the difference of two integers to the one gives the other. -/
theorem ofInt64_add_sub {m n : Int64} (hm : Fits m.toInt) (hn : Fits n.toInt)
    (hdiff : Fits (n.toInt - m.toInt)) : ofInt64 m + ofInt64 (n - m) = ofInt64 n := by
  have hsum := ofInt_add hm hdiff (by rwa [add_sub_cancel])
  rw [add_sub_cancel] at hsum
  unfold ofInt64
  rw [toInt_sub_of_fits hdiff, hsum]

end MetricRelay.Number
