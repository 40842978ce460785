import MetricRelay.Proofs.Number.Rounding

/-!
# Products, quotients and natural numbers

One operation on floating point numbers rounds the exact result: if that
lies in the interval of a value, the operation gives the value
(`mul_of_rounds`, `div_of_rounds`, `round_of_rounds`). An exact result is
the special case of a number in its own interval (`rounds_magnitude`),
which also makes values unique (`eq_of_magnitude_eq`).
-/

namespace MetricRelay.Number

open Float.Model Float.Model.UnpackedFloat

theorem zpow_eq_ratio {a : ℚ} (ha : a ≠ 0) (e : Int) : a ^ e = a ^ e.toNat / a ^ (-e).toNat := by
  rw [← zpow_natCast, ← zpow_natCast, ← zpow_sub₀ ha]
  congr 1
  omega

namespace Binary

def magnitude (b : Binary) : ℚ := b.mantissa * 2 ^ b.exponent

theorem rounds_magnitude (b : Binary) : b.Rounds b.magnitude := by
  have hp := two_zpow_pos b.exponent
  have hr := b.reachBelow_pos
  constructor
  · exact Or.inl (mul_lt_mul_of_pos_right (by linarith) hp)
  · exact Or.inl (mul_lt_mul_of_pos_right (by linarith) hp)

/-- Zero, in either sign. -/
def zero (negative : Bool) : Binary := ⟨negative, 0, leastExponent⟩

theorem canonical_zero (negative : Bool) : (zero negative).Canonical :=
  ⟨Nat.two_pow_pos 53, le_rfl, show leastExponent ≤ 971 by decide, Or.inr rfl⟩

theorem magnitude_eq_zero {b : Binary} : b.magnitude = 0 ↔ b.mantissa = 0 := by
  have hp := two_zpow_pos b.exponent
  rw [magnitude, mul_eq_zero, Nat.cast_eq_zero]
  exact or_iff_left (ne_of_gt hp)

theorem magnitude_eq_ratio (b : Binary) :
    b.magnitude = (b.mantissa * 2 ^ b.exponent.toNat : Nat) / (2 ^ (-b.exponent).toNat : Nat) := by
  rw [magnitude, zpow_eq_ratio (by norm_num)]
  push_cast
  ring

end Binary

/-! ## Products and quotients -/

/-- The remainder of a division says how far the quotient is off. -/
theorem stands_quotient (n : Nat) {d : Nat} (hd : 0 < d) :
    Stands (.ofMantissaAndAccuracy (n / d) (accuracyOfFraction (n % d) d)) (n / d : ℚ) := by
  have hd' : (0 : ℚ) < d := by exact_mod_cast hd
  have hn : (n : ℚ) / d = (n / d : Nat) + (n % d : Nat) / d := by
    have h : (n : ℚ) = d * (n / d : Nat) + (n % d : Nat) := by
      exact_mod_cast (Nat.div_add_mod n d).symm
    rw [eq_comm, ← sub_eq_zero]
    field_simp
    linarith
  have hr : ((n % d : Nat) : ℚ) < d := by exact_mod_cast Nat.mod_lt n hd
  rw [hn]
  generalize n / d = q
  generalize n % d = r at hr
  unfold accuracyOfFraction
  split
  · next h0 =>
    subst h0
    simp [ExtendedMantissa.ofMantissaAndAccuracy, stands_exact]
  · next h0 =>
    have hr0 : (0 : ℚ) < (r : ℚ) / d := div_pos (by exact_mod_cast Nat.pos_of_ne_zero h0) hd'
    have hr1 : (r : ℚ) / d < 1 := (div_lt_one hd').mpr hr
    cases hc : compare (2 * r) d with
    | lt =>
      have hlt : (2 * r : ℚ) < d := by exact_mod_cast Nat.compare_eq_lt.mp hc
      have : (r : ℚ) / d < 1 / 2 := by rw [div_lt_div_iff₀ hd' (by norm_num)]; linarith
      exact stands_below.mpr ⟨by linarith, by linarith⟩
    | eq =>
      have heq : (2 * r : ℚ) = d := by exact_mod_cast Nat.compare_eq_eq.mp hc
      have : (r : ℚ) / d = 1 / 2 := by rw [div_eq_div_iff (ne_of_gt hd') (by norm_num)]; linarith
      exact stands_halfway.mpr (by rw [this])
    | gt =>
      have hgt : (d : ℚ) < 2 * r := by exact_mod_cast Nat.compare_eq_gt.mp hc
      have : 1 / 2 < (r : ℚ) / d := by rw [div_lt_div_iff₀ (by norm_num) hd']; linarith
      exact stands_above.mpr ⟨by linarith, by linarith⟩

theorem log2_shiftLeft {m : Nat} (hm : m ≠ 0) (k : Nat) : (m <<< k).log2 = m.log2 + k := by
  induction k with
  | zero => rfl
  | succ k ih =>
    rw [Nat.shiftLeft_succ, Nat.log2_two_mul, ih, Nat.add_assoc]
    rw [Nat.shiftLeft_eq]
    exact Nat.mul_ne_zero hm (Nat.ne_of_gt (Nat.two_pow_pos k))

/-- Moving a power of two from the exponent to the significand keeps the number. -/
theorem shiftLeft_mul_zpow (m k : Nat) (e : Int) :
    ((m <<< k : Nat) : ℚ) * 2 ^ (e - k) = m * 2 ^ e := by
  rw [Nat.shiftLeft_eq, Nat.cast_mul, Nat.cast_pow, mul_assoc, Nat.cast_ofNat, ← zpow_natCast,
    ← zpow_add₀ (by norm_num), add_sub_cancel]

section

variable {b : Binary} {s t : Sign} {m n : Nat} {e f : Int}

theorem round_of_rounds (hb : b.Canonical) (hm : m ≠ 0) (h : b.Rounds (m * 2 ^ e)) :
    UnpackedFloat.round Format.binary64 (signOf b.negative) m e = b.unpacked := by
  unfold UnpackedFloat.round decreaseExponent
  dsimp only
  generalize hT : Format.binary64.targetExponent (totalExponent m e) = T
  generalize hk : (e - T).toNat = k
  have htotal : totalExponent (m <<< k) (e - k) = totalExponent m e := by
    rw [totalExponent, totalExponent, log2_shiftLeft hm]
    push_cast
    ring
  refine roundWithAccuracy_of_rounds hb (y := (m <<< k : Nat)) (stands_exact.mpr rfl) ?_ ?_
  · rw [htotal, hT]
    omega
  · rw [shiftLeft_mul_zpow]
    exact h

theorem mul_of_rounds (hb : b.Canonical) (hs : s * t = signOf b.negative) (hm : 0 < m) (hn : 0 < n)
    (he : e + f ≤ Format.binary64.targetExponent (totalExponent (m * n) (e + f)))
    (h : b.Rounds (m * 2 ^ e * (n * 2 ^ f))) :
    UnpackedFloat.mul Format.binary64 (.finite s m e hm) (.finite t n f hn) = b.unpacked := by
  show roundWithAccuracy Format.binary64 (s * t) (m * n) (e + f) .exact = _
  rw [hs]
  refine roundWithAccuracy_of_rounds hb (y := (m * n : Nat)) (stands_exact.mpr rfl) he ?_
  rw [zpow_add₀ (by norm_num)]
  push_cast
  rwa [mul_mul_mul_comm]

theorem div_of_rounds (hb : b.Canonical) (hs : s / t = signOf b.negative) (hm : 0 < m) (hn : 0 < n)
    (h : b.Rounds (m * 2 ^ e / (n * 2 ^ f))) :
    UnpackedFloat.div Format.binary64 (.finite s m e hm) (.finite t n f hn) = b.unpacked := by
  unfold UnpackedFloat.div divCore
  dsimp only
  rw [hs]
  generalize hT : Format.binary64.targetExponent (totalExponent m e - totalExponent n f) = T
  generalize hk : (e - f - min (e - f) T).toNat = k
  have hmin : min (e - f) T = e - f - k := by omega
  rw [hmin]
  have hquotient := stands_quotient (m <<< k) hn
  have hvalue : ((m <<< k : Nat) : ℚ) / n * 2 ^ (e - f - k) = m * 2 ^ e / (n * 2 ^ f) := by
    rw [div_mul_eq_mul_div, shiftLeft_mul_zpow, zpow_sub₀ (by norm_num)]
    have := Binary.two_zpow_pos f
    field_simp
  refine roundWithAccuracy_of_rounds hb hquotient ?_ (hvalue ▸ h)
  -- the quotient has as many bits as the lengths of the two numbers promise
  have hlow : (2 : ℚ) ^ (totalExponent m e - 1 - totalExponent n f) < m * 2 ^ e / (n * 2 ^ f) := by
    have hn' : (0 : ℚ) < n * 2 ^ f := mul_pos (by exact_mod_cast hn) (Binary.two_zpow_pos f)
    rw [zpow_sub₀ (by norm_num), div_lt_div_iff₀ (Binary.two_zpow_pos _) hn']
    calc (2 : ℚ) ^ (totalExponent m e - 1) * (n * 2 ^ f)
        ≤ m * 2 ^ e * (n * 2 ^ f) := mul_le_mul_of_nonneg_right
          (two_zpow_totalExponent_le (Nat.ne_of_gt hm) le_rfl) (le_of_lt hn')
      _ < m * 2 ^ e * 2 ^ totalExponent n f := mul_lt_mul_of_pos_left
          (lt_two_zpow_totalExponent (lt_add_one _))
          (mul_pos (by exact_mod_cast hm) (Binary.two_zpow_pos e))
  have hhigh := lt_two_zpow_totalExponent (e := e - f - k) hquotient.quotient.2
  rw [hvalue] at hhigh
  have := two_zpow_lt (lt_trans hlow hhigh)
  rw [targetExponent_eq] at hT ⊢
  omega

end

/-! ## Operations on numbers -/

/-- A long significand may be rounded at once. -/
theorem le_targetExponent {m : Nat} (hm : 2 ^ 52 ≤ m) (e : Int) :
    e ≤ Format.binary64.targetExponent (totalExponent m e) := by
  have hm0 : m ≠ 0 := by
    rintro rfl
    exact absurd hm (by decide)
  have hlog : 52 ≤ m.log2 := (Nat.le_log2 hm0).mpr hm
  rw [targetExponent_eq, totalExponent]
  omega

/-- What is rounded to a number below the normal range is below one. -/
theorem Binary.Rounds.full_of_one_le {b : Binary} (hb : b.Canonical) {q : ℚ} (h : b.Rounds q)
    (hq : 1 ≤ q) : 2 ^ 52 ≤ b.mantissa ∧ 1 ≤ b.magnitude := by
  have hlt : (2 : ℚ) ^ (0 : Int) < 2 ^ (53 + b.exponent) :=
    lt_of_le_of_lt (by simpa using hq) (h.lt_pow hb)
  have hexponent := two_zpow_lt hlt
  have hfull : 2 ^ 52 ≤ b.mantissa := by
    refine hb.full.resolve_right fun hleast => ?_
    unfold Binary.leastExponent at hleast
    omega
  refine ⟨hfull, ?_⟩
  calc (1 : ℚ) ≤ 2 ^ (52 + b.exponent) := one_le_zpow₀ (by norm_num) (by omega)
    _ = 2 ^ 52 * 2 ^ b.exponent := by
      rw [zpow_add₀ (by norm_num)]
      norm_num
    _ ≤ b.magnitude := by
      refine mul_le_mul_of_nonneg_right ?_ (two_zpow_pos _).le
      exact_mod_cast hfull

theorem mantissa_ne_zero {b : Binary} (h : 0 < b.magnitude) : b.mantissa ≠ 0 := by
  rw [ne_eq, ← Binary.magnitude_eq_zero]
  exact ne_of_gt h

theorem mul_toFloat {b c : Binary} (hb : b.Canonical) (hc : c.Canonical) :
    b.toFloat * c.toFloat
      = .ofModel (.pack (UnpackedFloat.mul Format.binary64 b.unpacked c.unpacked)) := by
  rw [← unpack_toFloat hb, ← unpack_toFloat hc]
  rfl

theorem div_toFloat {b c : Binary} (hb : b.Canonical) (hc : c.Canonical) :
    b.toFloat / c.toFloat
      = .ofModel (.pack (UnpackedFloat.div Format.binary64 b.unpacked c.unpacked)) := by
  rw [← unpack_toFloat hb, ← unpack_toFloat hc]
  rfl

/-- The product of two numbers, one of them not below one, is the value in
whose interval the exact product lies. -/
theorem mul_toFloat_of_rounds {b c d : Binary} (hb : b.Canonical) (hc : c.Canonical)
    (hd : d.Canonical) (hs : signOf b.negative * signOf c.negative = signOf d.negative)
    (hb1 : 1 ≤ b.magnitude) (hc0 : 0 < c.magnitude) (h : d.Rounds (b.magnitude * c.magnitude)) :
    b.toFloat * c.toFloat = d.toFloat := by
  have hb0 := mantissa_ne_zero (lt_of_lt_of_le one_pos hb1)
  have hc0 := mantissa_ne_zero hc0
  have hfull : 2 ^ 52 ≤ b.mantissa * c.mantissa :=
    le_trans (b.rounds_magnitude.full_of_one_le hb hb1).1
      (Nat.le_mul_of_pos_right _ (Nat.pos_of_ne_zero hc0))
  rw [mul_toFloat hb hc, Binary.unpacked_of_ne_zero hb0, Binary.unpacked_of_ne_zero hc0,
    mul_of_rounds hd hs _ _ (le_targetExponent hfull _) h]
  rfl

theorem div_toFloat_of_rounds {b c d : Binary} (hb : b.Canonical) (hc : c.Canonical)
    (hd : d.Canonical) (hs : signOf b.negative / signOf c.negative = signOf d.negative)
    (hb0 : 0 < b.magnitude) (hc0 : 0 < c.magnitude) (h : d.Rounds (b.magnitude / c.magnitude)) :
    b.toFloat / c.toFloat = d.toFloat := by
  have hb0 := mantissa_ne_zero hb0
  have hc0 := mantissa_ne_zero hc0
  rw [div_toFloat hb hc, Binary.unpacked_of_ne_zero hb0, Binary.unpacked_of_ne_zero hc0,
    div_of_rounds hd hs _ _ h]
  rfl

theorem eq_of_magnitude_eq {b c : Binary} (hb : b.Canonical) (hc : c.Canonical)
    (hs : b.negative = c.negative) (h : b.magnitude = c.magnitude) : b = c := by
  refine unpacked_injective hb hc ?_
  by_cases h0 : b.mantissa = 0
  · have hc0 : c.mantissa = 0 := by
      rwa [← Binary.magnitude_eq_zero, ← h, Binary.magnitude_eq_zero]
    rw [Binary.unpacked_of_zero h0, Binary.unpacked_of_zero hc0, hs]
  · have hrounds : c.Rounds b.magnitude := h ▸ c.rounds_magnitude
    rw [← round_of_rounds hb h0 b.rounds_magnitude, hs]
    exact round_of_rounds hc h0 hrounds

/-! ## Natural numbers -/

theorem exists_canonical_natural {n : Nat} (hn : n ≤ 2 ^ 53) (negative : Bool) :
    ∃ b : Binary, b.Canonical ∧ b.negative = negative ∧ b.magnitude = n := by
  rcases Nat.eq_zero_or_pos n with rfl | hpos
  · refine ⟨.zero negative, Binary.canonical_zero negative, rfl, ?_⟩
    simp [Binary.magnitude, Binary.zero]
  have hn0 : n ≠ 0 := Nat.ne_of_gt hpos
  rcases Nat.lt_or_eq_of_le hn with hlt | rfl
  · have hlog : n.log2 ≤ 52 := Nat.le_of_lt_succ ((Nat.log2_lt hn0).mpr hlt)
    obtain ⟨k, hk⟩ : ∃ k, 52 = n.log2 + k := ⟨52 - n.log2, by omega⟩
    have hlog' : (n <<< k).log2 = 52 := by rw [log2_shiftLeft hn0, hk]
    have hne : n <<< k ≠ 0 := by
      rw [Nat.shiftLeft_eq]
      exact Nat.mul_ne_zero hn0 (Nat.ne_of_gt (Nat.two_pow_pos k))
    have hbounds := (Nat.log2_eq_iff hne).mp hlog'
    refine ⟨⟨negative, n <<< k, 0 - k⟩, ⟨hbounds.2, ?_, ?_, Or.inl hbounds.1⟩, rfl, ?_⟩
    · unfold Binary.leastExponent
      dsimp only
      omega
    · dsimp only
      omega
    · exact (shiftLeft_mul_zpow n k 0).trans (by simp)
  · have hlt : 2 ^ 52 < 2 ^ 53 := by decide
    have hleast : Binary.leastExponent ≤ 1 := by decide
    have hgreatest : (1 : Int) ≤ 971 := by decide
    refine ⟨⟨negative, 2 ^ 52, 1⟩, ⟨hlt, hleast, hgreatest, Or.inl le_rfl⟩, rfl, ?_⟩
    simp only [Binary.magnitude]
    norm_num

/-- What has the sign and the absolute value of a number is normalized to it. -/
theorem normalize_eq {b : Binary} (hb : b.Canonical) {m e : Int} (hs : b.negative = decide (m < 0))
    (h : b.magnitude = m.natAbs * 2 ^ e) :
    Float.ofModel (.pack (UnpackedFloat.normalize Format.binary64 m e .positive)) = b.toFloat := by
  by_cases h0 : m = 0
  · have hb0 : b.mantissa = 0 := by rw [← Binary.magnitude_eq_zero, h, h0]; simp
    rw [Binary.toFloat, Binary.unpacked_of_zero hb0, hs, h0]
    rfl
  have hrounds : b.Rounds (m.natAbs * 2 ^ e) := h ▸ b.rounds_magnitude
  have hround := round_of_rounds hb (Int.natAbs_ne_zero.mpr h0) hrounds
  rw [Binary.toFloat, ← hround, hs]
  unfold UnpackedFloat.normalize
  rcases Int.lt_or_gt_of_ne h0 with hlt | hgt
  · rw [Int.compare_eq_lt.mpr hlt, decide_eq_true hlt, show (-m).toNat = m.natAbs by omega]
    rfl
  · rw [Int.compare_eq_gt.mpr hgt, decide_eq_false (by omega), show m.toNat = m.natAbs by omega]
    rfl

theorem toFloat_uint64 {b : Binary} (hb : b.Canonical) (hs : b.negative = false) {n : UInt64}
    (h : b.magnitude = n.toNat) : n.toFloat = b.toFloat := by
  refine normalize_eq hb (hs.trans (decide_eq_false (by omega)).symm) ?_
  rw [h, zpow_zero, mul_one, Int.natAbs_natCast]

end MetricRelay.Number
