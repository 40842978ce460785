import MetricRelay.Number.Numeral
import Mathlib.Tactic.Ring

/-!
# Decimal digits

Reading the digits of a number gives the number (`digitsValue_digits`).
-/

namespace MetricRelay.Number

theorem digitsValue_nil (n : Nat) : digitsValue n [] = n := rfl

theorem digitsValue_cons (n : Nat) (c : Char) (cs : List Char) :
    digitsValue n (c :: cs) = digitsValue (n * 10 + (c.toNat - '0'.toNat)) cs := by
  -- `rfl` alone would compare the two numbers first
  delta digitsValue
  rfl

theorem digitsValue_append (n : Nat) (cs ds : List Char) :
    digitsValue n (cs ++ ds) = digitsValue (digitsValue n cs) ds := by
  induction cs generalizing n with
  | nil => rfl
  | cons c cs ih => rw [List.cons_append, digitsValue_cons, digitsValue_cons, ih]

theorem digitsValue_eq (n : Nat) (cs : List Char) :
    digitsValue n cs = Nat.ofDigitChars 10 cs n := by
  induction cs generalizing n with
  | nil => rw [digitsValue_nil, Nat.ofDigitChars_nil]
  | cons c cs ih => rw [digitsValue_cons, ih, Nat.ofDigitChars_cons, Nat.mul_comm]

theorem digitsValue_digits (n : Nat) : digitsValue 0 (digits n) = n := by
  rw [digitsValue_eq, digits, Nat.ofDigitChars_ten_toDigits]

theorem digitsValue_zeros (n k : Nat) :
    digitsValue n (List.replicate k '0') = n * 10 ^ k := by
  induction k generalizing n with
  | zero => rw [Nat.pow_zero, Nat.mul_one, List.replicate_zero, digitsValue_nil]
  | succ k ih =>
    rw [List.replicate_succ, digitsValue_cons, ih, Nat.sub_self]
    ring

theorem isDigit_of_mem_digits {n : Nat} {c : Char} (h : c ∈ digits n) : c.isDigit :=
  Nat.isDigit_of_mem_toDigits (by decide) (by decide) h

theorem digits_ne_nil (n : Nat) : digits n ≠ [] := Nat.toDigits_ne_nil

/-- The digits of a number that is not zero do not begin with a zero. -/
theorem exists_digits_eq_cons {n : Nat} (hn : n ≠ 0) : ∃ c cs, digits n = c :: cs ∧ c ≠ '0' := by
  induction n using Nat.strongRecOn with
  | ind n ih =>
    unfold digits at ih ⊢
    rw [Nat.toDigits_eq_if (by decide)]
    split
    · exact ⟨_, [], rfl, fun h => hn (Nat.digitChar_eq_zero.mp h)⟩
    · next hlarge =>
      obtain ⟨c, cs, heq, hc⟩ := ih (n / 10) (by omega) (by omega)
      rw [heq]
      exact ⟨c, _, rfl, hc⟩

theorem exists_digits_of_ne_zero {n : Nat} (hn : n ≠ 0) :
    ∃ c cs, digits n = c :: cs ∧ c ≠ '0' ∧ (∀ d ∈ c :: cs, d.isDigit)
      ∧ digitsValue 0 (c :: cs) = n := by
  obtain ⟨c, cs, hdigits, hc⟩ := exists_digits_eq_cons hn
  refine ⟨c, cs, hdigits, hc, ?_, ?_⟩
  · intro d hd
    exact isDigit_of_mem_digits (n := n) (hdigits ▸ hd)
  · rw [← hdigits, digitsValue_digits]

theorem signed_natAbs (n : Int) : (if decide (n < 0) then -(n.natAbs : Int) else n.natAbs) = n := by
  by_cases h : n < 0
  · rw [if_pos (decide_eq_true h)]
    omega
  · rw [if_neg (by simpa using h)]
    omega

end MetricRelay.Number
