import MetricRelay.Proofs.Number.Decimals

/-!
# Which exact numbers are in range

Every exact number below `Binary.overflow`, the middle above the greatest
value, is rounded to a value (`exists_rounds`), and nothing else is
(`Rounds.lt_overflow`).
-/

namespace MetricRelay.Number

/-- A nearest integer, the even one of two. -/
theorem exists_nearest {y : ℚ} (hy : 0 ≤ y) :
    ∃ n : Nat, ((n : ℚ) - 1 / 2 < y ∨ n % 2 = 0 ∧ (n : ℚ) - 1 / 2 = y)
      ∧ (y < n + 1 / 2 ∨ n % 2 = 0 ∧ y = n + 1 / 2) := by
  have hlow := Nat.floor_le hy
  have hhigh := Nat.lt_floor_add_one y
  generalize ⌊y⌋₊ = k at hlow hhigh
  rcases lt_trichotomy y (k + 1 / 2) with h | h | h
  · exact ⟨k, Or.inl (by linarith), Or.inl h⟩
  · rcases Nat.mod_two_eq_zero_or_one k with heven | hodd
    · exact ⟨k, Or.inl (by linarith), Or.inr ⟨heven, h⟩⟩
    · refine ⟨k + 1, Or.inr ⟨by omega, ?_⟩, Or.inl ?_⟩ <;>
      · push_cast
        linarith
  · refine ⟨k + 1, Or.inl ?_, Or.inl ?_⟩ <;>
    · push_cast
      linarith

namespace Binary

/-- The middle between the greatest value and the power of two above it. -/
def overflow : ℚ := (2 ^ 53 - 1 / 2) * 2 ^ (971 : Int)

theorem mul_pow_le_overflow {r : ℚ} {e : Int} (hr : 0 ≤ r) (hshort : r ≤ 2 ^ 53 - 1 / 2)
    (he : e ≤ 971) : r * 2 ^ e ≤ overflow := by
  rw [overflow]
  exact mul_le_mul hshort (zpow_le_zpow_right₀ (by norm_num) he) (two_zpow_pos e).le
    (hr.trans hshort)

/-- What is rounded to a value is in range: the greatest one has an odd
significand and does not reach the middle above it. -/
theorem Rounds.lt_overflow {b : Binary} (hb : b.Canonical) {q : ℚ} (h : b.Rounds q) :
    q < overflow := by
  have hp := two_zpow_pos b.exponent
  have hshort := hb.lt
  rcases h.high with hlt | ⟨heven, heq⟩
  · have hm : (b.mantissa : ℚ) ≤ 2 ^ 53 - 1 := by
      have : (b.mantissa : ℚ) + 1 ≤ 2 ^ 53 := by exact_mod_cast hshort
      linarith
    exact lt_of_lt_of_le hlt (mul_pow_le_overflow (by positivity) (by linarith) hb.greatest)
  · have hm : (b.mantissa : ℚ) ≤ 2 ^ 53 - 2 := by
      have : (b.mantissa : ℚ) + 2 ≤ 2 ^ 53 := by
        have : b.mantissa + 2 ≤ 2 ^ 53 := by omega
        exact_mod_cast this
      linarith
    rw [heq]
    calc ((b.mantissa : ℚ) + 1 / 2) * 2 ^ b.exponent
        < (b.mantissa + 1) * 2 ^ b.exponent := mul_lt_mul_of_pos_right (by norm_num) hp
      _ ≤ overflow := mul_pow_le_overflow (by positivity) (by linarith) hb.greatest

/-- The exponent with which a number has no more bits than fit, and in the
normal range no fewer. -/
theorem exists_scale {q : ℚ} (hq : 0 ≤ q) :
    ∃ e : Int, -1074 ≤ e ∧ q / 2 ^ e < 2 ^ 53 ∧ (2 ^ 52 ≤ q / 2 ^ e ∨ e = -1074) := by
  rcases hq.eq_or_lt with rfl | hpos
  · exact ⟨-1074, le_rfl, by norm_num, Or.inr rfl⟩
  have hlow := Int.zpow_log_le_self (b := 2) (by norm_num) hpos
  have hhigh := Int.lt_zpow_succ_log_self (b := 2) (by norm_num) q
  push_cast at hlow hhigh
  generalize Int.log 2 q = l at hlow hhigh
  refine ⟨max (l - 52) (-1074), le_max_right _ _, ?_, ?_⟩
  · rw [div_lt_iff₀ (two_zpow_pos _)]
    refine lt_of_lt_of_le hhigh ?_
    rw [← zpow_natCast, ← zpow_add₀ (by norm_num)]
    refine zpow_le_zpow_right₀ (by norm_num) ?_
    push_cast
    omega
  · rcases le_total (l - 52) (-1074) with h | h
    · exact Or.inr (max_eq_right h)
    · left
      rw [max_eq_left h, le_div_iff₀ (two_zpow_pos _), ← zpow_natCast, ← zpow_add₀ (by norm_num)]
      refine le_trans (le_of_eq ?_) hlow
      congr 1
      push_cast
      omega

/-- A number in range has not too great a scale. -/
theorem scale_le {y : ℚ} {e : Int} (hy : 2 ^ 52 ≤ y) (h : y * 2 ^ e < overflow) : e ≤ 971 := by
  have hlt : (2 : ℚ) ^ (52 + e) < 2 ^ (1024 : Int) :=
    calc (2 : ℚ) ^ (52 + e) = 2 ^ 52 * 2 ^ e := by
          rw [zpow_add₀ (by norm_num)]
          norm_num
      _ ≤ y * 2 ^ e := mul_le_mul_of_nonneg_right hy (two_zpow_pos e).le
      _ < overflow := h
      _ < 2 ^ (1024 : Int) := by
          rw [overflow, show (1024 : Int) = 53 + 971 by norm_num, zpow_add₀ (by norm_num)]
          exact mul_lt_mul_of_pos_right (by norm_num) (two_zpow_pos 971)
  have := two_zpow_lt hlt
  omega

/-- A value has in its interval what its significand is nearest to; below a
power of two that must not be less than the power. -/
theorem rounds_of_nearest {b : Binary} {y : ℚ} (hfull : b.nearBelow → 2 ^ 52 ≤ y)
    (hlow : (b.mantissa : ℚ) - 1 / 2 < y ∨ b.mantissa % 2 = 0 ∧ (b.mantissa : ℚ) - 1 / 2 = y)
    (hhigh : y < b.mantissa + 1 / 2 ∨ b.mantissa % 2 = 0 ∧ y = b.mantissa + 1 / 2) :
    b.Rounds (y * 2 ^ b.exponent) := by
  have hp := two_zpow_pos b.exponent
  refine ⟨?_, ?_⟩
  · unfold reachBelow
    split
    · next hbelow =>
      have hm : (b.mantissa : ℚ) = 2 ^ 52 := by exact_mod_cast (nearBelow_iff.mp hbelow).1
      have hy := hfull hbelow
      exact Or.inl (mul_lt_mul_of_pos_right (by linarith) hp)
    · exact hlow.imp (mul_lt_mul_of_pos_right · hp) (And.imp_right (congrArg (· * _)))
  · exact hhigh.imp (mul_lt_mul_of_pos_right · hp) (And.imp_right (congrArg (· * _)))

/-- A significand that is rounded up to one bit too many stands for the next
power of two. -/
theorem rounds_carry (negative : Bool) {y : ℚ} {e : Int} (hleast : -1074 ≤ e)
    (hlow : 2 ^ 53 - 1 / 2 ≤ y) (hhigh : y < 2 ^ 53) :
    Rounds ⟨negative, 2 ^ 52, e + 1⟩ (y * 2 ^ e) := by
  have hp := two_zpow_pos e
  have hstep : (2 : ℚ) ^ (e + 1) = 2 * 2 ^ e := by
    rw [zpow_add₀ (by norm_num), zpow_one, mul_comm]
  have hbelow : nearBelow ⟨negative, 2 ^ 52, e + 1⟩ :=
    nearBelow_iff.mpr ⟨rfl, by dsimp only; omega⟩
  refine ⟨?_, Or.inl ?_⟩
  · have hle : ((2 ^ 52 : Nat) - 1 / 4 : ℚ) * (2 * 2 ^ e) ≤ y * 2 ^ e := by
      rw [← mul_assoc]
      refine mul_le_mul_of_nonneg_right ?_ hp.le
      push_cast
      linarith
    rw [reachBelow, if_pos hbelow]
    dsimp only
    rw [hstep]
    exact hle.lt_or_eq.imp id fun h => ⟨by decide, h⟩
  · dsimp only
    rw [hstep, ← mul_assoc]
    refine mul_lt_mul_of_pos_right ?_ hp
    push_cast
    linarith

/-- Every number in range is rounded to a value, in either sign. -/
theorem exists_rounds {q : ℚ} (hq : 0 ≤ q) (h : q < overflow) (negative : Bool) :
    ∃ b : Binary, b.Canonical ∧ b.negative = negative ∧ b.Rounds q := by
  obtain ⟨e, hleast, hshort, hfull⟩ := exists_scale hq
  have hp := two_zpow_pos e
  obtain ⟨n, hlow, hhigh⟩ := exists_nearest (div_nonneg hq hp.le)
  have hscaled : q = q / 2 ^ e * 2 ^ e := by rw [div_mul_cancel₀ _ hp.ne']
  generalize q / 2 ^ e = y at *
  subst hscaled
  have hgreatest : e ≤ 971 := hfull.elim (scale_le · h) (by omega)
  have hlow' : (n : ℚ) - 1 / 2 ≤ y := hlow.elim le_of_lt fun h => le_of_eq h.2
  have hhigh' : y ≤ n + 1 / 2 := hhigh.elim le_of_lt fun h => le_of_eq h.2
  have hn : n ≤ 2 ^ 53 := by
    have : (n : ℚ) < 2 ^ 53 + 1 := by linarith
    exact Nat.le_of_lt_succ (by exact_mod_cast this)
  rcases hn.lt_or_eq with hn | rfl
  · refine ⟨⟨negative, n, e⟩, ⟨hn, hleast, hgreatest, hfull.imp ?_ id⟩, rfl,
      rounds_of_nearest ?_ hlow hhigh⟩
    · intro hy
      have : (2 ^ 52 : ℚ) < n + 1 := by linarith
      exact Nat.le_of_lt_succ (by exact_mod_cast this)
    · intro hbelow
      exact hfull.resolve_right (nearBelow_iff.mp hbelow).2
  · push_cast at hlow'
    have hlt : e < 971 := by
      refine lt_of_le_of_ne hgreatest ?_
      rintro rfl
      have := lt_of_mul_lt_mul_right h hp.le
      linarith
    refine ⟨⟨negative, 2 ^ 52, e + 1⟩, ⟨?_, ?_, hlt, Or.inl le_rfl⟩, rfl,
      rounds_carry negative hleast hlow' hshort⟩
    · dsimp only
      decide
    · unfold leastExponent
      dsimp only
      omega

end Binary

end MetricRelay.Number
