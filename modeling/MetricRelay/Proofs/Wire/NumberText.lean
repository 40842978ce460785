import MetricRelay.Proofs.Number.Integers
import MetricRelay.Proofs.Wire.Growing

/-!
# Texts of numbers in payloads

The text of a finite number in a payload stands for this number, bit for
bit: wherever the layout puts the point, the digits and the places it is
moved by give the same decimal (`says_placed`, `says_scientific`), and the
decimal is in the interval of the number. The digits fit 64 bits, so the
text is read as some number in range (`read?_characters`), but not always
as the one that was written: it is `Restored` where the digits are few
(`restored_of_short`), and otherwise as the roundings have it.
-/

namespace MetricRelay.Wire

open Number (Layout Numeral Binary digits digitsValue signedDigits)

/-- The number that is read where `x` was written. -/
def reread (x : Float) : Float :=
  match NumberToken.read? (bytes (Layout.wire.characters x)) with
  | some t => t.numeral.scaled
  | none => x

/-- The number codec gives `x` back. -/
def Restored (x : Float) : Prop := reread x = x

instance (x : Float) : Decidable (Restored x) := inferInstanceAs (Decidable (reread x = x))

namespace NumberToken

/-- The text is read as `± m · 10 ^ e`, with this power of ten written
behind the digits. -/
def Says (cs : List Char) (negative : Bool) (m : Nat) (e : Int) (power : Nat) : Prop :=
  ∃ t, read? (bytes cs) = some t ∧ t.complete ∧ t.negative = negative ∧ t.mantissa = m
    ∧ t.numeral.exponent - t.numeral.places = e ∧ t.power = power

theorem bytes_ne_nil {cs : List Char} (h : cs ≠ []) : bytes cs ≠ [] := by
  cases cs with
  | nil => exact absurd rfl h
  | cons c cs =>
    rw [bytes, List.flatMap_cons]
    exact List.append_ne_nil_of_left_ne_nil String.utf8EncodeChar_ne_nil _

variable (negative : Bool) {c : Char} {whole fraction : List Char}

/-- A whole part and a fraction. -/
theorem read?_fraction (hwhole : ∀ d ∈ c :: whole, d.isDigit) (hc : c ≠ '0')
    (hfraction : ∀ d ∈ fraction, d.isDigit) (hne : fraction ≠ []) :
    read? (bytes (minus negative ++ (c :: whole) ++ '.' :: fraction))
      = some ⟨negative, digitsValue 0 (c :: whole ++ fraction), fraction.length, false, 0,
        .fraction⟩ := by
  have hread := read?_whole negative hwhole hc
  have hrest := feedAll_fraction (t := ⟨negative, digitsValue 0 (c :: whole), 0, false, 0, .whole⟩)
    (Or.inr rfl) hfraction hne
  rw [bytes_append, read?_append (bytes_ne_nil (by simp)), hread, Option.bind_some, hrest,
    Number.digitsValue_append]
  dsimp only
  rw [Nat.zero_add]

theorem says_fraction (hwhole : ∀ d ∈ c :: whole, d.isDigit) (hc : c ≠ '0')
    (hfraction : ∀ d ∈ fraction, d.isDigit) (hne : fraction ≠ []) :
    Says (minus negative ++ (c :: whole) ++ '.' :: fraction) negative
      (digitsValue 0 (c :: whole ++ fraction)) (-(fraction.length : Int)) 0 :=
  ⟨_, read?_fraction negative hwhole hc hfraction hne, rfl, rfl, rfl, by simp [numeral], rfl⟩

/-- A fraction behind a zero. -/
theorem says_small (hfraction : ∀ d ∈ fraction, d.isDigit) (hne : fraction ≠ []) :
    Says (minus negative ++ '0' :: '.' :: fraction) negative
      (digitsValue 0 fraction) (-(fraction.length : Int)) 0 := by
  have hrest := feedAll_fraction (t := ⟨negative, 0, 0, false, 0, .zero⟩)
    (Or.inl rfl) hfraction hne
  have hread : read? (bytes (minus negative ++ '0' :: '.' :: fraction))
      = some ⟨negative, digitsValue 0 fraction, fraction.length, false, 0, .fraction⟩ := by
    rw [List.append_cons, bytes_append, read?_append (bytes_ne_nil (by simp)), read?_zero,
      Option.bind_some, hrest]
    dsimp only
    rw [Nat.zero_add]
  exact ⟨_, hread, rfl, rfl, rfl, by simp [numeral], rfl⟩

/-! ## The two layouts -/

theorem mul_pow_zpow (n k : Nat) (e : Int) :
    ((n * 10 ^ k : Nat) : ℚ) * 10 ^ e = n * 10 ^ (k + e) := by
  rw [Nat.cast_mul, Nat.cast_pow, Nat.cast_ofNat, mul_assoc, ← zpow_natCast,
    ← zpow_add₀ (by norm_num)]

variable {cs : List Char}

theorem isDigit_of_mem_replicate {k : Nat} {d : Char} (hd : d ∈ List.replicate k '0') :
    d.isDigit := by
  rw [List.eq_of_mem_replicate hd]
  rfl

/-- Zeros between the digits and the point. -/
theorem says_zeros_behind (hall : ∀ d ∈ c :: cs, d.isDigit) (hc : c ≠ '0') (k : Nat) :
    Says (minus negative ++ (c :: cs ++ List.replicate k '0' ++ ['.', '0'])) negative
      (digitsValue 0 (c :: cs) * 10 ^ (k + 1)) (-1) 0 := by
  have hzeros : ∀ d ∈ c :: (cs ++ List.replicate k '0'), d.isDigit := by
    intro d hd
    rw [← List.cons_append, List.mem_append] at hd
    rcases hd with hd | hd
    · exact hall d hd
    · exact isDigit_of_mem_replicate hd
  have hlast : ∀ d ∈ ['0'], d.isDigit := by simp
  have h := says_fraction negative hzeros hc hlast (by simp)
  have hmantissa : digitsValue 0 (c :: (cs ++ List.replicate k '0') ++ ['0'])
      = digitsValue 0 (c :: cs) * 10 ^ (k + 1) := by
    rw [← List.cons_append, List.append_assoc, ← List.replicate_one,
      List.replicate_append_replicate, Number.digitsValue_append, Number.digitsValue_zeros]
  rw [hmantissa] at h
  convert h using 1
  · simp
  · rfl

/-- The point between two digits. -/
theorem says_divided (hall : ∀ d ∈ c :: cs, d.isDigit) (hc : c ≠ '0') {places : Nat}
    (hpos : places ≠ 0) (hplaces : places < (c :: cs).length) :
    Says (minus negative ++ ((c :: cs).take ((c :: cs).length - places)
        ++ '.' :: (c :: cs).drop ((c :: cs).length - places))) negative
      (digitsValue 0 (c :: cs)) (-(places : Int)) 0 := by
  obtain ⟨k, hk⟩ : ∃ k, (c :: cs).length - places = k + 1 :=
    ⟨(c :: cs).length - places - 1, by omega⟩
  rw [hk, List.take_succ_cons, List.drop_succ_cons]
  rw [List.length_cons] at hk hplaces
  have hlength : (cs.drop k).length = places := by
    rw [List.length_drop]
    omega
  have hwhole : ∀ d ∈ c :: cs.take k, d.isDigit := fun d hd =>
    hall d (List.mem_of_mem_take (i := k + 1) hd)
  have hfraction : ∀ d ∈ cs.drop k, d.isDigit := fun d hd =>
    hall d (List.mem_cons_of_mem c (List.mem_of_mem_drop hd))
  have h := says_fraction negative hwhole hc hfraction (List.ne_nil_of_length_pos (by omega))
  rw [List.cons_append, List.take_append_drop, hlength] at h
  convert h using 1
  simp

/-- Zeros between the point and the digits. -/
theorem says_zeros_before (hall : ∀ d ∈ c :: cs, d.isDigit) {places : Nat}
    (hplaces : (c :: cs).length ≤ places) :
    Says (minus negative ++ ('0' :: '.' :: List.replicate (places - (c :: cs).length) '0'
        ++ c :: cs)) negative
      (digitsValue 0 (c :: cs)) (-(places : Int)) 0 := by
  have hfraction : ∀ d ∈ List.replicate (places - (c :: cs).length) '0' ++ c :: cs,
      d.isDigit := by
    intro d hd
    rcases List.mem_append.mp hd with hd | hd
    · exact isDigit_of_mem_replicate hd
    · exact hall d hd
  have h := says_small negative hfraction (by simp)
  rw [Number.digitsValue_append, Number.digitsValue_zeros, Nat.zero_mul, List.length_append,
    List.length_replicate, Nat.sub_add_cancel hplaces] at h
  convert h using 1
  simp

/-- Without an exponent, zeros that are written count as digits. -/
theorem says_placed {n : Nat} (hn : n ≠ 0) (e : Int) :
    Says (minus negative ++ Layout.placed true (digits n) e) negative
      (n * 10 ^ (e + 1).toNat) (e - (e + 1).toNat) 0 := by
  obtain ⟨c, cs, hdigits, hc, hall, hvalue⟩ := Number.exists_digits_of_ne_zero hn
  rw [hdigits, ← hvalue]
  unfold Layout.placed
  by_cases he : 0 ≤ e
  · have h := says_zeros_behind negative hall hc e.toNat
    rw [if_pos he, show (e + 1).toNat = e.toNat + 1 by omega,
      show e - ((e.toNat + 1 : Nat) : Int) = -1 by omega]
    exact h
  · have hplaces : -((-e).toNat : Int) = e := by omega
    rw [if_neg he, show (e + 1).toNat = 0 by omega, pow_zero, mul_one, Nat.cast_zero, sub_zero]
    dsimp only
    split
    · next hlt =>
      have h := says_divided negative hall hc (by omega) hlt
      rwa [hplaces] at h
    · next hge =>
      have h := says_zeros_before negative hall (not_lt.mp hge)
      rwa [hplaces] at h

/-- A number without its exponent, and the exponent. -/
theorem says_power {cs : List Char} {t : NumberToken} (ht : read? (bytes cs) = some t)
    (hcs : cs ≠ []) (hstage : t.stage = .zero ∨ t.stage = .whole ∨ t.stage = .fraction)
    (hshrinks : t.shrinks = false) (hpower : t.power = 0) (plus : Bool) (n : Int) :
    Says (cs ++ 'e' :: (if plus && 0 ≤ n then ['+'] else []) ++ signedDigits n) t.negative
      t.mantissa (n - t.places) n.natAbs := by
  have hrest := feedAll_power hstage hshrinks hpower plus n
  have hread : read? (bytes (cs ++ 'e' :: (if plus && 0 ≤ n then ['+'] else []) ++ signedDigits n))
      = some { t with shrinks := n < 0, power := n.natAbs, stage := .exponent } := by
    rw [List.append_assoc, bytes_append, read?_append (bytes_ne_nil hcs), ht, Option.bind_some, hrest]
  exact ⟨_, hread, rfl, rfl, rfl, congrArg (· - (t.places : Int)) (Number.signed_natAbs n), rfl⟩

theorem says_scientific {n : Nat} (hn : n ≠ 0) (plus : Bool) (e : Int) :
    Says (minus negative ++ Layout.scientific plus (digits n) (e + ((digits n).length - 1 : Nat)))
      negative n e (e + ((digits n).length - 1 : Nat)).natAbs := by
  obtain ⟨c, cs, hdigits, hc, hall, hvalue⟩ := Number.exists_digits_of_ne_zero hn
  rw [hdigits]
  unfold Layout.scientific
  cases cs with
  | nil =>
    have hread := read?_whole negative hall hc
    have h := says_power hread (by simp) (Or.inr (Or.inl rfl)) rfl rfl plus e
    convert h using 1
    · simp
    · exact hvalue.symm
    · simp
    · simp
  | cons d ds =>
    have hc' : ∀ x ∈ [c], x.isDigit := fun x hx => hall x (by simp_all)
    have hds : ∀ x ∈ d :: ds, x.isDigit := fun x hx => hall x (List.mem_cons_of_mem c hx)
    have hread := read?_fraction negative hc' hc hds (List.cons_ne_nil d ds)
    have h := says_power hread (by simp) (Or.inr (Or.inr rfl)) rfl rfl plus
      (e + ((d :: ds).length : Nat))
    convert h using 1
    · simp
    · exact hvalue.symm
    · simp
    · rfl

/-! ## Numbers -/

/-- The text is read as a number in range whose digits stand for an exact
number that is rounded to `b`, with a minus or without. -/
def Writes (cs : List Char) (negative : Bool) (b : Binary) : Prop :=
  ∃ t, read? (bytes cs) = some t ∧ t.complete ∧ t.negative = negative
    ∧ b.Rounds t.numeral.magnitude ∧ t.Brief ∧ t.numeral.scaled.isFinite

theorem Says.writes {cs : List Char} {m power : Nat} {e : Int} {b : Binary}
    (h : Says cs negative m e power) (hrounds : b.Rounds (m * 10 ^ e)) (hm : m < 2 ^ 64)
    (hpower : power ≤ safePower * 10) (hfinite : (Number.shifted (Float.ofNat m) e).isFinite) :
    Writes cs negative b := by
  obtain ⟨t, hread, hcomplete, hnegative, rfl, rfl, rfl⟩ := h
  exact ⟨t, hread, hcomplete, hnegative, hrounds, ⟨hm, hpower⟩,
    Numeral.isFinite_scaled_of_lt hm hfinite⟩

theorem digits_shortest_ne_zero {b : Binary} (hb : b.Canonical) (hb0 : b.mantissa ≠ 0)
    (tie : Number.Tie) : (b.shortest tie).digits ≠ 0 := by
  intro h0
  have hlow := (b.rounds_shortest hb hb0 tie).pow_le hb0
  rw [Number.Decimal.value, h0, Nat.cast_zero, zero_mul] at hlow
  exact absurd (Binary.two_zpow_pos _) (not_lt.mpr hlow)

theorem writes_zero {b : Binary} (hb0 : b.mantissa = 0) :
    Writes (minus negative ++ Layout.wire.magnitude b) negative b := by
  have htext : Layout.wire.magnitude b = ['0', '.', '0'] := by
    rw [Layout.magnitude, Binary.shortest, if_pos hb0]
    rfl
  have hlast : ∀ d ∈ ['0'], d.isDigit := by simp
  have hrounds : b.Rounds ((digitsValue 0 ['0'] : Nat) * 10 ^ (-((['0'].length : Nat) : Int))) := by
    rw [show digitsValue 0 ['0'] = 0 from rfl, Nat.cast_zero, zero_mul,
      ← Binary.magnitude_eq_zero.mpr hb0]
    exact b.rounds_magnitude
  rw [htext]
  exact (says_small negative hlast (by simp)).writes negative hrounds (by decide) (by decide)
    (Number.isFinite_shifted_of_nonpos (by decide) (by decide))

/-- Digits with their point where it belongs are so few that they fit, also
with the zeros that are written. -/
theorem writes_placed {b : Binary} {n : Nat} {e : Int} (hn0 : n ≠ 0) (hn : n ≤ 10 ^ 17)
    (hrounds : b.Rounds (n * 10 ^ e)) (hlead : e + ((digits n).length - 1 : Nat) ≤ 15) :
    Writes (minus negative ++ Layout.placed true (digits n) e) negative b := by
  have hm : n * 10 ^ (e + 1).toNat ≤ 10 ^ 17 := by
    by_cases he : e < 0
    · rwa [show (e + 1).toNat = 0 by omega, pow_zero, mul_one]
    · have hpos : 0 < (digits n).length := Nat.length_toDigits_pos
      calc n * 10 ^ (e + 1).toNat ≤ 10 ^ (digits n).length * 10 ^ (e + 1).toNat :=
            Nat.mul_le_mul_right _ (Binary.lt_pow_length n).le
        _ = 10 ^ ((digits n).length + (e + 1).toNat) := (Nat.pow_add ..).symm
        _ ≤ 10 ^ 17 := Nat.pow_le_pow_right (by decide) (by omega)
  have hm : n * 10 ^ (e + 1).toNat < 2 ^ 64 := hm.trans_lt (by decide)
  refine (says_placed negative hn0 e).writes negative ?_ hm (by decide)
    (Number.isFinite_shifted_of_nonpos hm (by omega))
  rw [mul_pow_zpow, add_sub_cancel]
  exact hrounds

theorem writes_scientific {b : Binary} (hb : b.Canonical) {n : Nat} {e : Int} (hn0 : n ≠ 0)
    (hn : n ≤ 10 ^ 17) (hrounds : b.Rounds (n * 10 ^ e)) (hb0 : b.mantissa ≠ 0)
    (hfinite : (Number.shifted (Float.ofNat n) e).isFinite) :
    Writes (minus negative ++ Layout.scientific true (digits n) (e + ((digits n).length - 1 : Nat)))
      negative b := by
  have hm : n < 2 ^ 64 := hn.trans_lt (by decide)
  have hlength : (digits n).length ≤ 18 :=
    (Nat.length_toDigits_le_iff (by decide) (by decide)).mpr (hn.trans_lt (by decide))
  have hlog : n.log2 < 64 := (Nat.log2_lt hn0).mpr hm
  have hgreatest := hrounds.exponent_le hb (Nat.pos_of_ne_zero hn0)
  have hleast := hrounds.le_exponent hb hb0
  refine (says_scientific negative hn0 true e).writes negative hrounds hm ?_ hfinite
  unfold safePower
  omega

/-- The text of a finite number in a payload, without its sign. -/
theorem writes_magnitude {b : Binary} (hb : b.Canonical) :
    Writes (minus negative ++ Layout.wire.magnitude b) negative b := by
  by_cases hb0 : b.mantissa = 0
  · exact writes_zero negative hb0
  have hn0 := digits_shortest_ne_zero hb hb0 .toEven
  have hn := Binary.digits_shortest_le hb .toEven
  have hrounds := Binary.rounds_shortest hb hb0 .toEven
  unfold Layout.magnitude
  dsimp only [Layout.wire]
  split
  · next hlead =>
    rw [Bool.and_eq_true, decide_eq_true_eq, decide_eq_true_eq] at hlead
    exact writes_placed negative hn0 hn hrounds hlead.2
  · exact writes_scientific negative hb hn0 hn hrounds hb0 (Number.isFinite_shifted_shortest hb)

/-- The text of a finite number in a payload stands for this number, and is
read as some number in range. -/
theorem read?_characters {x : Float} (h : x.isFinite) :
    ∃ t, read? (bytes (Layout.wire.characters x)) = some t ∧ t.complete ∧ t.numeral.toFloat = x
      ∧ t.numeral.scaled = reread x ∧ t.Brief ∧ (reread x).isFinite := by
  have hb := Number.canonical_ofFloat h
  have hcharacters : Layout.wire.characters x
      = minus (Binary.ofFloat x).negative ++ Layout.wire.magnitude (Binary.ofFloat x) := by
    rw [Layout.characters, Number.isNaN_of_isFinite h, if_neg Bool.false_ne_true, h, if_pos rfl,
      Number.isNegative_eq]
    rfl
  obtain ⟨t, hread, hcomplete, hnegative, hrounds, hbrief, hfinite⟩ := writes_magnitude _ hb
  rw [← hcharacters] at hread
  have hreread : t.numeral.scaled = reread x := by rw [reread, hread]
  refine ⟨t, hread, hcomplete, ?_, hreread, hbrief, hreread ▸ hfinite⟩
  rw [Numeral.toFloat_of_rounds hb hnegative hrounds, Number.toFloat_ofFloat h]

/-- A number is given back whose digits are a number exactly, as the power
of ten behind them is. -/
theorem restored_of_short {x : Float} (h : x.isFinite) {t : NumberToken}
    (ht : read? (bytes (Layout.wire.characters x)) = some t) (hm : t.mantissa < 2 ^ 53)
    (hscale : (t.numeral.exponent - t.places).natAbs ≤ 22) : Restored x := by
  obtain ⟨u, hread, -, hvalue, hreread, -⟩ := read?_characters h
  obtain rfl := Option.some.inj (ht.symm.trans hread)
  rw [Restored, ← hreread, Numeral.scaled_of_short hm hscale, hvalue]

/-- The product of 3.3 and 3 is not given back, and an integer may become a
fraction. -/
example : reread 9.899999999999999 = 9.9 ∧ reread 1801439850948199 = 1801439850948199.25 := by
  decide +kernel

/-! ## Integers -/

/-- The digits of an integer are read as this integer, which is in range
where it fits the significand. -/
theorem read?_signedDigits {n : Int} (hn : Number.Fits n) :
    ∃ t, read? (bytes (signedDigits n)) = some t ∧ t.complete ∧ t.integer? = some n
      ∧ t.Brief ∧ t.numeral.scaled.isFinite := by
  have hfits : n.natAbs < 2 ^ 64 := lt_of_le_of_lt hn (by decide)
  have hrange : ∀ stage, let t : NumberToken := ⟨decide (n < 0), n.natAbs, 0, false, 0, stage⟩
      t.Brief ∧ t.numeral.scaled.isFinite := fun stage =>
    ⟨⟨hfits, Nat.zero_le _⟩, isFinite_of_safe hfits (Nat.zero_le _)⟩
  have htext : signedDigits n = minus (n < 0) ++ digits n.natAbs := by
    unfold signedDigits minus
    by_cases h : n < 0
    · rw [if_pos h, if_pos (decide_eq_true h)]
      rfl
    · rw [if_neg h, if_neg (by simpa using h)]
      rfl
  rw [htext]
  by_cases h0 : n = 0
  · subst h0
    exact ⟨_, read?_zero false, rfl, rfl, hrange .zero⟩
  have habs : n.natAbs ≠ 0 := Int.natAbs_ne_zero.mpr h0
  obtain ⟨c, cs, hdigits, hc, hall, hvalue⟩ := Number.exists_digits_of_ne_zero habs
  have hread := read?_whole (decide (n < 0)) hall hc
  rw [hvalue, ← hdigits] at hread
  exact ⟨_, hread, rfl,
    integer?_eq_some_iff.mpr ⟨Or.inr rfl, fun h => habs h.2, Number.signed_natAbs n⟩, hrange .whole⟩

end NumberToken

end MetricRelay.Wire
