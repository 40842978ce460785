import MetricRelay.Proofs.Number.Arithmetic

/-!
# Shortest decimals read back

The shortest decimal of a value lies in the interval of the value
(`rounds_shortest`). The comparisons on natural numbers are those on
rationals (`compareBinary_eq`), so a decimal that passes the test is in
the interval, and every decimal that the search returns has passed. With
seventeen digits the search cannot fail: the grid is then finer than the
interval is wide, and one of the neighbours on the grid is inside.
-/

namespace MetricRelay.Number

/-! ## Comparisons -/

/-- The exact number. -/
def Decimal.value (d : Decimal) : ℚ := d.digits * 10 ^ d.exponent

theorem compare_cast (m n : Nat) : compare (m : ℚ) n = compare m n := by
  rcases lt_trichotomy m n with h | h | h
  · rw [compare_lt_iff_lt.mpr h, compare_lt_iff_lt.mpr (by exact_mod_cast h)]
  · rw [compare_eq_iff_eq.mpr h, compare_eq_iff_eq.mpr (by exact_mod_cast h)]
  · rw [compare_gt_iff_gt.mpr h, compare_gt_iff_gt.mpr (by exact_mod_cast h)]

theorem compare_div (m n : ℚ) {c d : ℚ} (hc : 0 < c) (hd : 0 < d) :
    compare (m / c) (n / d) = compare (m * d) (n * c) := by
  rcases lt_trichotomy (m * d) (n * c) with h | h | h
  · rw [compare_lt_iff_lt.mpr h, compare_lt_iff_lt.mpr ((div_lt_div_iff₀ hc hd).mpr h)]
  · rw [compare_eq_iff_eq.mpr h,
      compare_eq_iff_eq.mpr ((div_eq_div_iff (ne_of_gt hc) (ne_of_gt hd)).mpr h)]
  · rw [compare_gt_iff_gt.mpr h, compare_gt_iff_gt.mpr ((div_lt_div_iff₀ hd hc).mpr h)]

theorem compareBinary_eq (d : Decimal) (n : Nat) (e : Int) :
    d.compareBinary n e = compare d.value (n * 2 ^ e) := by
  have hd : d.value = (d.digits * 10 ^ d.exponent.toNat : Nat) / (10 ^ (-d.exponent).toNat : Nat) := by
    rw [Decimal.value, zpow_eq_ratio (by norm_num)]
    push_cast
    ring
  have hn : (n * 2 ^ e : ℚ) = (n * 2 ^ e.toNat : Nat) / (2 ^ (-e).toNat : Nat) := by
    rw [zpow_eq_ratio (by norm_num)]
    push_cast
    ring
  rw [hd, hn, compare_div _ _ (by positivity) (by positivity), ← Nat.cast_mul, ← Nat.cast_mul,
    compare_cast]
  rfl

namespace Binary

variable {b : Binary} {d : Decimal}

theorem low_eq (hm : b.mantissa ≠ 0) :
    ((4 * b.mantissa - (if b.nearBelow then 1 else 2) : Nat) : ℚ) * 2 ^ (b.exponent - 2)
      = (b.mantissa - b.reachBelow) * 2 ^ b.exponent := by
  rw [zpow_sub₀ (by norm_num), reachBelow]
  split
  · rw [Nat.cast_sub (by omega)]
    push_cast
    ring
  · rw [Nat.cast_sub (by omega)]
    push_cast
    ring

theorem high_eq (b : Binary) :
    ((4 * b.mantissa + 2 : Nat) : ℚ) * 2 ^ (b.exponent - 2)
      = (b.mantissa + 1 / 2) * 2 ^ b.exponent := by
  rw [zpow_sub₀ (by norm_num)]
  push_cast
  ring

/-- The test on natural numbers is whether the decimal is in the interval. -/
theorem rounds_of_readsBack (hm : b.mantissa ≠ 0) (h : b.readsBack d) : b.Rounds d.value := by
  unfold readsBack at h
  dsimp only at h
  rw [compareBinary_eq, compareBinary_eq, low_eq hm, high_eq] at h
  split at h
  · next heven =>
    simp only [Bool.and_eq_true, bne_iff_ne, ne_eq, compare_lt_iff_lt, compare_gt_iff_gt,
      not_lt] at h
    exact ⟨(lt_or_eq_of_le h.1).imp id fun h => ⟨heven, h⟩,
      (lt_or_eq_of_le h.2).imp id fun h => ⟨heven, h⟩⟩
  · simp only [Bool.and_eq_true, beq_iff_eq, compare_lt_iff_lt, compare_gt_iff_gt] at h
    exact ⟨Or.inl h.1, Or.inl h.2⟩

/-- A decimal inside the interval passes the test. -/
theorem readsBack_of_lt (hm : b.mantissa ≠ 0)
    (hlow : (b.mantissa - b.reachBelow) * 2 ^ b.exponent < d.value)
    (hhigh : d.value < (b.mantissa + 1 / 2) * 2 ^ b.exponent) : b.readsBack d := by
  unfold readsBack
  dsimp only
  rw [compareBinary_eq, compareBinary_eq, low_eq hm, high_eq, compare_gt_iff_gt.mpr hlow,
    compare_lt_iff_lt.mpr hhigh]
  split <;> rfl

/-! ## The search -/

theorem nearer_eq (tie : Tie) (b : Binary) (n : Nat) (place : Int) :
    b.nearer tie n place = ⟨n, place⟩ ∨ b.nearer tie n place = ⟨n + 1, place⟩ := by
  unfold nearer
  cases Decimal.compareBinary ⟨2 * n + 1, place⟩ (2 * b.mantissa) b.exponent with
  | lt => exact Or.inr rfl
  | gt => exact Or.inl rfl
  | eq =>
    cases tie with
    | up => exact Or.inr rfl
    | toEven =>
      dsimp only
      rcases Nat.mod_two_eq_zero_or_one n with h | h
      · rw [h]
        exact Or.inl rfl
      · rw [h]
        exact Or.inr rfl

/-- What is found is a neighbour on the grid that passes the test. -/
theorem withDigits?_eq_some {tie : Tie} {count : Nat} (h : b.withDigits? tie count = some d) :
    b.readsBack d ∧ ∃ place, place = leadingPlace b.ratio.1 b.ratio.2 - (count - 1 : Nat)
      ∧ d.digits ≤ gridBelow b.ratio.1 b.ratio.2 place + 1 := by
  unfold withDigits? at h
  dsimp only at h
  generalize hplace : leadingPlace b.ratio.1 b.ratio.2 - (count - 1 : Nat) = place at h
  generalize hn : gridBelow b.ratio.1 b.ratio.2 place = n at h
  suffices hd : b.readsBack d ∧ d.digits ≤ n + 1 from ⟨hd.1, place, rfl, hn ▸ hd.2⟩
  split at h
  · next hboth =>
    rw [Bool.and_eq_true] at hboth
    cases h
    rcases nearer_eq tie b n place with heq | heq
    · rw [heq]
      exact ⟨hboth.1, Nat.le_succ n⟩
    · rw [heq]
      exact ⟨hboth.2, le_rfl⟩
  · split at h
    · next hlower =>
      cases h
      exact ⟨hlower, Nat.le_succ n⟩
    · split at h
      · next hupper =>
        cases h
        exact ⟨hupper, le_rfl⟩
      · cases h

theorem withDigits?_isSome {tie : Tie} {count : Nat}
    (h : let place := leadingPlace b.ratio.1 b.ratio.2 - (count - 1 : Nat)
      b.readsBack ⟨gridBelow b.ratio.1 b.ratio.2 place, place⟩
        ∨ b.readsBack ⟨gridBelow b.ratio.1 b.ratio.2 place + 1, place⟩) :
    (b.withDigits? tie count).isSome := by
  unfold withDigits?
  dsimp only at h ⊢
  generalize leadingPlace b.ratio.1 b.ratio.2 - (count - 1 : Nat) = place at h
  generalize gridBelow b.ratio.1 b.ratio.2 place = n at h
  rcases h with h | h
  · rw [h]
    cases b.readsBack ⟨n + 1, place⟩ <;> rfl
  · rw [h]
    cases b.readsBack ⟨n, place⟩ <;> rfl

/-! ## Seventeen digits -/

theorem pow_length_le {n : Nat} (hn : 0 < n) : 10 ^ ((Nat.toDigits 10 n).length - 1) ≤ n := by
  have hpos := Nat.length_toDigits_pos (b := 10) (n := n)
  rcases Nat.eq_zero_or_pos ((Nat.toDigits 10 n).length - 1) with h0 | h0
  · rw [h0, Nat.pow_zero]
    exact hn
  · have hle := Nat.length_toDigits_le_iff (b := 10) (n := n) (by decide) h0
    by_contra hlt
    have := hle.mpr (not_le.mp hlt)
    omega

theorem lt_pow_length (n : Nat) : n < 10 ^ (Nat.toDigits 10 n).length :=
  (Nat.length_toDigits_le_iff (by decide) Nat.length_toDigits_pos).mp le_rfl

/-- The first significant digit is worth no more than the number. -/
theorem pow_leadingPlace_le {num den : Nat} (hnum : 0 < num) (hden : 0 < den) :
    (10 : ℚ) ^ leadingPlace num den ≤ num / den := by
  have hden' : (0 : ℚ) < den := by exact_mod_cast hden
  unfold leadingPlace
  rw [le_div_iff₀ hden']
  split
  · next hle =>
    have hquot : 0 < num / den := Nat.div_pos hle hden
    have hpos := Nat.length_toDigits_pos (b := 10) (n := num / den)
    have hpow : 10 ^ ((Nat.toDigits 10 (num / den)).length - 1) * den ≤ num :=
      (Nat.le_div_iff_mul_le hden).mp (pow_length_le hquot)
    rw [show ((Nat.toDigits 10 (num / den)).length : Int) - 1
      = ((Nat.toDigits 10 (num / den)).length - 1 : Nat) by omega, zpow_natCast]
    exact_mod_cast hpow
  · next hlt =>
    have hpow : den ≤ 10 ^ (Nat.toDigits 10 ((den - 1) / num)).length * num := by
      have := (Nat.div_lt_iff_lt_mul hnum).mp (lt_pow_length ((den - 1) / num))
      omega
    rw [zpow_neg, zpow_natCast, inv_mul_le_iff₀ (by positivity)]
    exact_mod_cast hpow

/-- The place before the first significant digit is worth more than the
number. -/
theorem lt_pow_leadingPlace {num den : Nat} (hnum : 0 < num) (hden : 0 < den) :
    (num / den : ℚ) < 10 ^ (leadingPlace num den + 1) := by
  have hden' : (0 : ℚ) < den := by exact_mod_cast hden
  unfold leadingPlace
  rw [div_lt_iff₀ hden']
  split
  · next hle =>
    have hpow : num < 10 ^ (Nat.toDigits 10 (num / den)).length * den :=
      (Nat.div_lt_iff_lt_mul hden).mp (lt_pow_length (num / den))
    rw [sub_add_cancel, zpow_natCast]
    exact_mod_cast hpow
  · next hlt =>
    have hquot : 0 < (den - 1) / num := Nat.div_pos (by omega) hnum
    have hpos := Nat.length_toDigits_pos (b := 10) (n := (den - 1) / num)
    have hpow : 10 ^ ((Nat.toDigits 10 ((den - 1) / num)).length - 1) * num < den := by
      have := (Nat.le_div_iff_mul_le hnum).mp (pow_length_le hquot)
      omega
    rw [show -((Nat.toDigits 10 ((den - 1) / num)).length : Int) + 1
      = -(((Nat.toDigits 10 ((den - 1) / num)).length - 1 : Nat) : Int) by omega, zpow_neg,
      zpow_natCast, lt_inv_mul_iff₀ (by positivity)]
    exact_mod_cast hpow

/-- The neighbours on a grid enclose the number. -/
theorem gridBelow_le (num : Nat) {den : Nat} (hden : 0 < den) (place : Int) :
    (gridBelow num den place : ℚ) * 10 ^ place ≤ num / den
      ∧ (num / den : ℚ) < (gridBelow num den place + 1 : Nat) * 10 ^ place := by
  have hd : 0 < den * 10 ^ place.toNat := Nat.mul_pos hden (Nat.pow_pos (by decide))
  have hd' : (0 : ℚ) < den * 10 ^ place.toNat := by exact_mod_cast hd
  have hstands := (stands_quotient (num * 10 ^ (-place).toNat) hd).quotient
  have hp : (0 : ℚ) < 10 ^ place := zpow_pos (by norm_num) place
  have hvalue : ((num * 10 ^ (-place).toNat : Nat) : ℚ) / (den * 10 ^ place.toNat : Nat)
      = num / den / 10 ^ place := by
    rw [zpow_eq_ratio (by norm_num)]
    push_cast
    field_simp
  rw [hvalue, le_div_iff₀ hp, div_lt_iff₀ hp] at hstands
  refine ⟨hstands.1, ?_⟩
  rw [Nat.cast_add, Nat.cast_one]
  exact hstands.2

/-- A grid finer than the interval has a point in it: one of the
neighbours. -/
theorem readsBack_neighbour (hm : b.mantissa ≠ 0) {n : Nat} {place : Int}
    (hbelow : (n : ℚ) * 10 ^ place ≤ b.magnitude)
    (habove : b.magnitude < (n + 1 : Nat) * 10 ^ place)
    (hfine : (10 : ℚ) ^ place < (b.reachBelow + 1 / 2) * 2 ^ b.exponent) :
    b.readsBack ⟨n, place⟩ ∨ b.readsBack ⟨n + 1, place⟩ := by
  have hp := two_zpow_pos b.exponent
  have hr := mul_pos b.reachBelow_pos hp
  unfold magnitude at hbelow habove
  by_cases hlow : (b.mantissa - b.reachBelow) * 2 ^ b.exponent < n * 10 ^ place
  · left
    refine readsBack_of_lt hm hlow (lt_of_le_of_lt hbelow ?_)
    linarith
  · right
    refine readsBack_of_lt hm ?_ ?_
    · refine lt_trans ?_ habove
      linarith
    · have hnext : (Decimal.mk (n + 1) place).value = n * 10 ^ place + 10 ^ place := by
        rw [Decimal.value]
        push_cast
        ring
      rw [hnext]
      linarith

theorem withDigits?_enough (hb : b.Canonical) (hm : b.mantissa ≠ 0) (tie : Tie) :
    (b.withDigits? tie enoughDigits).isSome := by
  have hnum : 0 < b.ratio.1 := Nat.mul_pos (Nat.pos_of_ne_zero hm) (Nat.two_pow_pos _)
  have hden : 0 < b.ratio.2 := Nat.two_pow_pos _
  have hratio : b.magnitude = b.ratio.1 / b.ratio.2 := b.magnitude_eq_ratio
  refine withDigits?_isSome ?_
  dsimp only
  generalize hplace : leadingPlace b.ratio.1 b.ratio.2 - ((enoughDigits - 1 : Nat) : Int) = place
  obtain ⟨hbelow, habove⟩ := gridBelow_le b.ratio.1 hden place
  rw [← hratio] at hbelow habove
  refine readsBack_neighbour hm hbelow habove ?_
  have hlead : (10 : ℚ) ^ place * 10 ^ 16 ≤ b.mantissa * 2 ^ b.exponent := by
    have := pow_leadingPlace_le hnum hden
    rw [← hratio, show leadingPlace b.ratio.1 b.ratio.2 = place + (16 : Nat) by
      rw [← hplace]; unfold enoughDigits; omega, zpow_add₀ (by norm_num), zpow_natCast] at this
    exact this
  have hp := two_zpow_pos b.exponent
  have hlt : (b.mantissa : ℚ) ≤ 2 ^ 53 := by exact_mod_cast hb.lt.le
  unfold reachBelow
  split
  · next hbelow =>
    have hmantissa : (b.mantissa : ℚ) = 2 ^ 52 := by
      rw [(nearBelow_iff.mp hbelow).1]
      norm_num
    rw [hmantissa] at hlead
    linarith
  · have := mul_le_mul_of_nonneg_right hlt hp.le
    linarith

/-! ## The shortest decimal -/

theorem value_dropZeros (fuel : Nat) (d : Decimal) : (d.dropZeros fuel).value = d.value := by
  induction fuel generalizing d with
  | zero => rfl
  | succ fuel ih =>
    unfold Decimal.dropZeros
    split
    · next hzero =>
      have hdigits : (d.digits : ℚ) = (d.digits / 10 : Nat) * 10 := by
        have : d.digits = d.digits / 10 * 10 := by omega
        exact_mod_cast this
      rw [ih, Decimal.value, Decimal.value, hdigits, zpow_add₀ (by norm_num)]
      ring
    · rfl

theorem digits_dropZeros_le (fuel : Nat) (d : Decimal) :
    (d.dropZeros fuel).digits ≤ d.digits := by
  induction fuel generalizing d with
  | zero => exact le_rfl
  | succ fuel ih =>
    unfold Decimal.dropZeros
    split
    · exact (ih _).trans (Nat.div_le_self _ _)
    · exact le_rfl

/-- The search for the shortest decimal does not fail. -/
theorem exists_shortest (hb : b.Canonical) (hm : b.mantissa ≠ 0) (tie : Tie) :
    ∃ i < enoughDigits, ∃ d, b.withDigits? tie (i + 1) = some d
      ∧ b.shortest tie = d.dropZeros enoughDigits := by
  unfold shortest
  rw [if_neg hm]
  split
  · next d hfind =>
    obtain ⟨i, hi, hd⟩ := List.exists_of_findSome?_eq_some hfind
    exact ⟨i, List.mem_range.mp hi, d, hd, rfl⟩
  · next hnone =>
    have hlast := List.findSome?_eq_none_iff.mp hnone (enoughDigits - 1) (by decide)
    have hsome := withDigits?_enough hb hm tie
    rw [show enoughDigits - 1 + 1 = enoughDigits from rfl] at hlast
    rw [hlast] at hsome
    cases hsome

theorem rounds_shortest (hb : b.Canonical) (hm : b.mantissa ≠ 0) (tie : Tie) :
    b.Rounds (b.shortest tie).value := by
  obtain ⟨i, -, d, hd, heq⟩ := exists_shortest hb hm tie
  rw [heq, value_dropZeros]
  exact rounds_of_readsBack hm (withDigits?_eq_some hd).1

/-- A search among decimals with so many digits finds none with more, but
for the power of ten above them. -/
theorem digits_le_of_withDigits? (hm : b.mantissa ≠ 0) {tie : Tie} {i : Nat}
    (h : b.withDigits? tie (i + 1) = some d) : d.digits ≤ 10 ^ (i + 1) := by
  have hnum : 0 < b.ratio.1 := Nat.mul_pos (Nat.pos_of_ne_zero hm) (Nat.two_pow_pos _)
  have hden : 0 < b.ratio.2 := Nat.two_pow_pos _
  obtain ⟨-, place, hplace, hle⟩ := withDigits?_eq_some h
  have hp : (0 : ℚ) < 10 ^ place := zpow_pos (by norm_num) place
  have hlead : leadingPlace b.ratio.1 b.ratio.2 + 1 = ((i + 1 : Nat) : Int) + place := by omega
  have hlt : (gridBelow b.ratio.1 b.ratio.2 place : ℚ) * 10 ^ place
      < (10 ^ (i + 1) : Nat) * 10 ^ place :=
    calc (gridBelow b.ratio.1 b.ratio.2 place : ℚ) * 10 ^ place
        ≤ b.ratio.1 / b.ratio.2 := (gridBelow_le _ hden place).1
      _ < 10 ^ (leadingPlace b.ratio.1 b.ratio.2 + 1) := lt_pow_leadingPlace hnum hden
      _ = (10 ^ (i + 1) : Nat) * 10 ^ place := by
        rw [hlead, zpow_add₀ (by norm_num), zpow_natCast]
        push_cast
        rfl
  have hgrid : gridBelow b.ratio.1 b.ratio.2 place < 10 ^ (i + 1) := by
    exact_mod_cast lt_of_mul_lt_mul_right hlt hp.le
  exact hle.trans hgrid

theorem digits_shortest_le (hb : b.Canonical) (tie : Tie) :
    (b.shortest tie).digits ≤ 10 ^ enoughDigits := by
  by_cases hm : b.mantissa = 0
  · unfold shortest
    rw [if_pos hm]
    exact Nat.zero_le _
  · obtain ⟨i, hi, d, hd, heq⟩ := exists_shortest hb hm tie
    rw [heq]
    exact ((digits_dropZeros_le _ d).trans (digits_le_of_withDigits? hm hd)).trans
      (Nat.pow_le_pow_right (by decide) hi)

end Binary

end MetricRelay.Number
