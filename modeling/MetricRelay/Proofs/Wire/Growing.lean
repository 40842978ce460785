import MetricRelay.Proofs.Number.Scaled
import MetricRelay.Proofs.Wire.Numbers

/-!
# Numbers grow as they are read

Any beginning of a number may be a number too. `Grows` says what one byte
can do to a token. The mantissa never falls, and the exponent of a proper
beginning has a digit less (`le_of_begins`). So where a number is `Brief`
and in range, no beginning of it is out of range (`isFinite_of_feedAll`).
The beginnings of an integer are integers between zero and it
(`exists_integer_of_feedAll`).
-/

namespace MetricRelay.Wire.NumberToken

open Number (Numeral Binary)

/-! ## One byte -/

/-- What one byte can do to a number that goes on. -/
inductive Grows : NumberToken → NumberToken → Prop
  | lead {t : NumberToken} (d : Nat) (ht : t.stage = .sign) :
    Grows t { t with mantissa := d, stage := if d = 0 then .zero else .whole }
  | whole {t : NumberToken} (d : Nat) (ht : t.stage = .whole) :
    Grows t { t with mantissa := t.mantissa * 10 + d }
  | fraction {t : NumberToken} (d : Nat) (ht : t.stage = .point ∨ t.stage = .fraction) :
    Grows t { t with
      mantissa := t.mantissa * 10 + d, places := t.places + 1, stage := .fraction }
  | exponent {t : NumberToken} (d : Nat)
      (ht : t.stage = .mark ∨ t.stage = .markSign ∨ t.stage = .exponent) :
    Grows t { t with power := t.power * 10 + d, stage := .exponent }
  | point {t : NumberToken} (ht : t.stage = .zero ∨ t.stage = .whole) :
    Grows t { t with stage := .point }
  | mark {t : NumberToken} (ht : t.stage = .zero ∨ t.stage = .whole ∨ t.stage = .fraction) :
    Grows t { t with stage := .mark }
  | plus {t : NumberToken} (ht : t.stage = .mark) : Grows t { t with stage := .markSign }
  | minus {t : NumberToken} (ht : t.stage = .mark) :
    Grows t { t with shrinks := true, stage := .markSign }

variable {t t' : NumberToken} {b : UInt8} {bs : List UInt8}

theorem grows_of_takeDigit {d : Nat} (h : t.takeDigit d = .goes t') : Grows t t' := by
  unfold takeDigit at h
  split at h <;> cases h
  · next ht => exact .lead d ht
  · next ht => exact .whole d ht
  · next ht => exact .fraction d (Or.inl ht)
  · next ht => exact .fraction d (Or.inr ht)
  · next ht => exact .exponent d (Or.inl ht)
  · next ht => exact .exponent d (Or.inr (Or.inl ht))
  · next ht => exact .exponent d (Or.inr (Or.inr ht))

theorem grows_of_takeOther (h : t.takeOther b = .goes t') : Grows t t' := by
  unfold takeOther at h
  split at h
  · next ht =>
    split at h
    · cases h
      exact .point (Or.inl ht)
    split at h <;> cases h
    exact .mark (Or.inl ht)
  · next ht =>
    split at h
    · cases h
      exact .point (Or.inr ht)
    split at h <;> cases h
    exact .mark (Or.inr (Or.inl ht))
  · next ht =>
    split at h <;> cases h
    exact .mark (Or.inr (Or.inr ht))
  · next ht =>
    split at h
    · cases h
      exact .plus ht
    split at h <;> cases h
    exact .minus ht
  all_goals cases h

theorem grows_of_feed (h : t.feed b = .goes t') : Grows t t' := by
  unfold feed at h
  split at h
  · exact grows_of_takeDigit h
  · exact grows_of_takeOther h

/-- What is so of every number that has begun: nothing stands where it is
not yet read, and only zero begins with a zero. -/
structure Sound (t : NumberToken) : Prop where
  sign : t.stage = .sign → t.mantissa = 0
  whole : t.stage = .whole → t.mantissa ≠ 0
  exponent : t.stage ≠ .exponent → t.power = 0

theorem sound_of_start? (h : start? b = some t) : t.Sound := by
  unfold start? at h
  split at h
  · cases h
    exact ⟨fun _ => rfl, nofun, fun _ => rfl⟩
  split at h
  · cases h
    exact ⟨nofun, nofun, fun _ => rfl⟩
  · next hzero =>
    obtain ⟨d, hd, rfl⟩ := Option.map_eq_some_iff.mp h
    have hpos : d ≠ 0 := by
      unfold digit? at hd
      split at hd
      · next hdigit =>
        have hlow : 0x30 ≤ b.toNat := UInt8.le_iff_toNat_le.mp hdigit.1
        have hne : b.toNat ≠ 0x30 := fun h => hzero (UInt8.toNat_inj.mp h)
        cases hd
        omega
      · cases hd
    exact ⟨nofun, fun _ => hpos, fun _ => rfl⟩

theorem Sound.grows (hs : t.Sound) (h : Grows t t') : t'.Sound := by
  obtain ⟨hsign, hwhole, hexponent⟩ := hs
  cases h with
  | lead d ht =>
    have hpower : t.power = 0 := hexponent (by simp [ht])
    refine ⟨?_, ?_, fun _ => hpower⟩ <;>
    · dsimp only
      split <;> simp_all
  | whole d ht =>
    have hmantissa := hwhole ht
    exact ⟨by simp [ht], fun _ => by dsimp only; omega, hexponent⟩
  | exponent d ht => exact ⟨nofun, nofun, fun h => absurd rfl h⟩
  | fraction d ht =>
    have hpower : t.power = 0 := hexponent (by rcases ht with ht | ht <;> simp [ht])
    exact ⟨nofun, nofun, fun _ => hpower⟩
  | point ht =>
    have hpower : t.power = 0 := hexponent (by rcases ht with ht | ht <;> simp [ht])
    exact ⟨nofun, nofun, fun _ => hpower⟩
  | mark ht =>
    have hpower : t.power = 0 := hexponent (by rcases ht with ht | ht | ht <;> simp [ht])
    exact ⟨nofun, nofun, fun _ => hpower⟩
  | plus ht => exact ⟨nofun, nofun, fun _ => hexponent (by simp [ht])⟩
  | minus ht => exact ⟨nofun, nofun, fun _ => hexponent (by simp [ht])⟩

/-! ## Digits -/

/-- No byte takes back a digit, and one more digit of the exponent makes it
ten times as great. -/
theorem le_of_grows (hs : t.Sound) (h : Grows t t') :
    t.mantissa ≤ t'.mantissa ∧ t.power * 10 ≤ t'.power := by
  have hzero : t.stage ≠ .exponent → t.power * 10 ≤ t.power := fun ht => by
    rw [hs.exponent ht]
  cases h with
  | lead d ht => exact ⟨by simp [hs.sign ht], hzero (by simp [ht])⟩
  | whole d ht => exact ⟨by dsimp only; omega, hzero (by simp [ht])⟩
  | fraction d ht =>
    exact ⟨by dsimp only; omega, hzero (by rcases ht with ht | ht <;> simp [ht])⟩
  | exponent d ht => exact ⟨le_rfl, Nat.le_add_right _ _⟩
  | point ht => exact ⟨le_rfl, hzero (by rcases ht with ht | ht <;> simp [ht])⟩
  | mark ht => exact ⟨le_rfl, hzero (by rcases ht with ht | ht | ht <;> simp [ht])⟩
  | plus ht => exact ⟨le_rfl, hzero (by simp [ht])⟩
  | minus ht => exact ⟨le_rfl, hzero (by simp [ht])⟩

/-! ## Integers -/

/-- Neither a point nor an exponent has been read. -/
def IsPlain (t : NumberToken) : Prop := t.stage = .sign ∨ t.stage = .zero ∨ t.stage = .whole

theorem integer?_eq_some_iff {n : Int} :
    t.integer? = some n ↔ (t.stage = .zero ∨ t.stage = .whole)
      ∧ ¬ (t.negative = true ∧ t.mantissa = 0)
      ∧ (if t.negative then -(t.mantissa : Int) else t.mantissa) = n := by
  obtain ⟨negative, mantissa, places, shrinks, power, stage⟩ := t
  cases stage <;> cases negative <;> by_cases h0 : mantissa = 0 <;> simp [integer?, h0]

theorem isPlain_of_grows (hs : t.Sound) (h : Grows t t') (hplain : t'.IsPlain) :
    t.IsPlain ∧ t.stage ≠ .zero ∧ t.negative = t'.negative ∧ t.mantissa ≤ t'.mantissa := by
  cases h with
  | lead d ht => exact ⟨Or.inl ht, by simp [ht], rfl, by simp [hs.sign ht]⟩
  | whole d ht => exact ⟨Or.inr (Or.inr ht), by simp [ht], rfl, by dsimp only; omega⟩
  | fraction | exponent | point | mark | plus | minus => simp [IsPlain] at hplain

/-! ## Many bytes -/

/-- More bytes can make the second number of the first. -/
abbrev Begins : NumberToken → NumberToken → Prop := Relation.ReflTransGen Grows

theorem begins_of_feedAll (h : t.feedAll bs = some t') : Begins t t' := by
  induction bs generalizing t with
  | nil =>
    cases h
    exact .refl
  | cons b bs ih =>
    rw [feedAll] at h
    split at h
    · next hfeed => exact .head (grows_of_feed hfeed) (ih h)
    all_goals cases h

theorem Sound.begins (hs : t.Sound) (h : Begins t t') : t'.Sound := by
  induction h with
  | refl => exact hs
  | tail _ hgrows ih => exact ih.grows hgrows

theorem sound_of_read? (h : read? bs = some t) : t.Sound := by
  cases bs with
  | nil => cases h
  | cons b bs =>
    obtain ⟨first, hstart, hrest⟩ := Option.bind_eq_some_iff.mp h
    exact (sound_of_start? hstart).begins (begins_of_feedAll hrest)

theorem le_of_begins (hs : t.Sound) (h : Begins t t') :
    t.mantissa ≤ t'.mantissa ∧ (t = t' ∨ t.power * 10 ≤ t'.power) := by
  induction h with
  | refl => exact ⟨le_rfl, Or.inl rfl⟩
  | tail hbegins hgrows ih =>
    obtain ⟨hmantissa, hpower⟩ := le_of_grows (hs.begins hbegins) hgrows
    refine ⟨ih.1.trans hmantissa, Or.inr ?_⟩
    rcases ih.2 with rfl | hle
    · exact hpower
    · omega

theorem isPlain_of_begins (hs : t.Sound) (h : Begins t t') (hplain : t'.IsPlain) :
    t.IsPlain ∧ (t = t' ∨ t.stage ≠ .zero) ∧ t.negative = t'.negative
      ∧ t.mantissa ≤ t'.mantissa := by
  induction h using Relation.ReflTransGen.head_induction_on with
  | refl => exact ⟨hplain, Or.inl rfl, rfl, le_rfl⟩
  | head hgrows _ ih =>
    obtain ⟨hplain, -, hnegative, hmantissa⟩ := ih (hs.grows hgrows)
    obtain ⟨hplain', hzero, hnegative', hmantissa'⟩ := isPlain_of_grows hs hgrows hplain
    exact ⟨hplain', Or.inr hzero, hnegative'.trans hnegative, hmantissa'.trans hmantissa⟩

/-! ## Numbers in range -/

/-- The power of ten up to which all digits that fit are within reach. -/
def safePower : Nat := 288

/-- The digits fit, and so few of them are of the exponent that one less
keeps every number in range. -/
structure Brief (t : NumberToken) : Prop where
  mantissa : t.mantissa < 2 ^ 64
  power : t.power ≤ safePower * 10

theorem isFinite_of_safe (hmantissa : t.mantissa < 2 ^ 64) (hpower : t.power ≤ safePower) :
    t.numeral.scaled.isFinite := by
  refine Numeral.isFinite_scaled_of_le hmantissa ?_
  have hexponent : t.numeral.exponent - t.numeral.places ≤ (safePower : Nat) := by
    unfold numeral
    dsimp only
    split <;> omega
  have hm : (t.mantissa : ℚ) ≤ (2 ^ 64 : Nat) := by exact_mod_cast hmantissa.le
  have hreach := Binary.natCast_le_reach (n := 2 ^ 64 * 10 ^ safePower) (by decide +kernel)
  refine le_trans ?_ hreach
  rw [Nat.cast_mul, Nat.cast_pow 10, ← zpow_natCast, Nat.cast_ofNat]
  exact mul_le_mul hm (zpow_le_zpow_right₀ (by norm_num) hexponent) (by positivity) (by positivity)

/-- No beginning of a number in range is out of range. -/
theorem isFinite_of_feedAll (hs : t.Sound) (h : t.feedAll bs = some t') (hbrief : t'.Brief)
    (hfinite : t'.numeral.scaled.isFinite) : t.numeral.scaled.isFinite := by
  obtain ⟨hmantissa, rfl | hpower⟩ := le_of_begins hs (begins_of_feedAll h)
  · exact hfinite
  · have := hbrief.power
    exact isFinite_of_safe (hmantissa.trans_lt hbrief.mantissa) (by omega)

/-- A beginning of an integer that could be a number is an integer between
zero and it. -/
theorem exists_integer_of_feedAll (hs : t.Sound) (hcomplete : t.complete)
    (h : t.feedAll bs = some t') {n : Int} (hn : t'.integer? = some n) :
    ∃ k, t.integer? = some k ∧ (0 ≤ k ∧ k ≤ n ∨ n ≤ k ∧ k ≤ 0) := by
  obtain ⟨hstage, -, hvalue⟩ := integer?_eq_some_iff.mp hn
  obtain ⟨hplain, hzero, hnegative, hmantissa⟩ :=
    isPlain_of_begins hs (begins_of_feedAll h) (Or.inr hstage)
  rcases hzero with rfl | hzero
  · exact ⟨n, hn, by omega⟩
  have hwhole : t.stage = .whole := by
    rcases hplain with ht | ht | ht
    · simp [complete, ht] at hcomplete
    · exact absurd ht hzero
    · exact ht
  refine ⟨_, integer?_eq_some_iff.mpr ⟨Or.inr hwhole, fun h => hs.whole hwhole h.2, rfl⟩, ?_⟩
  rw [← hvalue, hnegative]
  split <;> omega

end MetricRelay.Wire.NumberToken
