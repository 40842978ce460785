import MetricRelay.Proofs.Number.Wholes
import MetricRelay.Proofs.Telescoping

/-!
# Counters that never fall

The difference of two whole parts wraps only if they have different signs.
Between readings of one sign a change is therefore the exact step, up to
the ends of the 64 bit integers where the whole parts stay. For a counter
that never falls all changes are of this kind (`Rising.isChain`): none of
them is negative, as an integer or as the number that is sent on, and they
add up to the last whole part without any bound on it.
-/

namespace MetricRelay

open Number (exact)

namespace Tracker

variable {last? : Option Metric} {ms : List Metric} {l c m : Metric} {name : String}
  {ws : List Write}

/-- Two whole parts of one sign. -/
def SameSign (i j : Int) : Prop := 0 ≤ i ∧ 0 ≤ j ∨ i < 0 ∧ j < 0

theorem toInt_difference_of_sign (h : SameSign (wholeOf last?) (whole m)) :
    (difference last? m).toInt = whole m - wholeOf last? := by
  cases last? with
  | none => exact (sub_zero (whole m)).symm
  | some last => exact Number.toInt_sub_of_sign h

/-- The change of a reading that has one before it is the difference from
that one. -/
theorem getElem?_successive {j : Nat} (hl : ms[j]? = some l) (hc : ms[j + 1]? = some c) :
    (successive last? ms)[j + 1]? = some (difference (some l) c) := by
  induction ms generalizing last? j with
  | nil => cases hl
  | cons m ms ih =>
    rw [successive, List.getElem?_cons_succ]
    rw [List.getElem?_cons_succ] at hc
    cases j with
    | zero =>
      obtain rfl := Option.some.inj hl
      cases ms with
      | nil => cases hc
      | cons m ms =>
        obtain rfl := Option.some.inj hc
        rfl
    | succ j =>
      rw [List.getElem?_cons_succ] at hl
      exact ih hl hc

/-- The whole parts are not negative and never fall. -/
structure Rising (ms : List Metric) : Prop where
  nonneg : ∀ m ∈ ms, 0 ≤ whole m
  mono : ms.IsChain fun l c => whole l ≤ whole c

theorem Rising.isChain (h : Rising ms) :
    (wholeOf none :: ms.map whole).IsChain fun i j => 0 ≤ i ∧ i ≤ j := by
  have hwholes : ∀ i ∈ ms.map whole, 0 ≤ i := by
    intro i hi
    obtain ⟨m, hm, rfl⟩ := List.mem_map.mp hi
    exact h.nonneg m hm
  have hmono : (ms.map whole).IsChain (· ≤ ·) := (List.isChain_map whole).mpr h.mono
  refine List.isChain_cons.mpr ⟨?_, hmono.imp_of_mem_imp fun i j hi _ hij => ⟨hwholes i hi, hij⟩⟩
  intro j hj
  exact ⟨le_rfl, hwholes j (List.mem_of_mem_head? hj)⟩

theorem toInt_difference_of_rising (h : 0 ≤ wholeOf last? ∧ wholeOf last? ≤ whole m) :
    (difference last? m).toInt = whole m - wholeOf last? :=
  toInt_difference_of_sign (Or.inl ⟨h.1, h.1.trans h.2⟩)

/-- In every run of a tracker a change between two readings of one sign is
the exact difference of their whole parts. So if the readings of a counter
are not negative and never fall, all changes are not negative either, the
numbers that are sent on included, and they add up to the whole part of the
last reading as integers. -/
theorem changes_of_rising (ws : List Write) (name : String)
    (hcounter : Metric.namesCounter name) :
    (changes name ws).length = (readings name ws).length
      ∧ (∀ (j : Nat) l c, (readings name ws)[j]? = some l → (readings name ws)[j + 1]? = some c →
          SameSign (whole l) (whole c) →
          ∃ d, (changes name ws)[j + 1]? = some d ∧ d.toInt = whole c - whole l)
      ∧ (Rising (readings name ws) →
          (∀ d ∈ changes name ws, 0 ≤ d.toInt)
            ∧ (∀ v ∈ sentOn name ws, ∃ d, v = some (.increment d) ∧ d.value.isFinite
              ∧ 0 ≤ exact d.value)
            ∧ ∀ last, (readings name ws).getLast? = some last →
              ((changes name ws).map Int64.toInt).sum = whole last) := by
  have hchanges : changes name ws = successive none (readings name ws) :=
    onReadings_change hcounter fresh ws
  refine ⟨length_onReadings change fresh ws, ?_, ?_⟩
  · intro j l c hl hc hsign
    refine ⟨difference (some l) c, ?_, toInt_difference_of_sign hsign⟩
    rw [hchanges]
    exact getElem?_successive hl hc
  · intro hrising
    obtain ⟨hsteps, hsum⟩ :=
      sum_successive_of_exact toInt_difference_of_rising none hrising.isChain
    rw [← hchanges] at hsteps hsum
    have hnonneg : ∀ d ∈ changes name ws, 0 ≤ d.toInt := by
      intro d hd
      obtain ⟨i, j, ⟨-, hij⟩, heq⟩ := hsteps d hd
      omega
    refine ⟨hnonneg, ?_, ?_⟩
    · intro v hv
      have hsent : sentOn name ws = _ := onReadings_step hcounter fresh ws
      rw [hsent, ← List.map_uncurry_zip_eq_zipWith] at hv
      obtain ⟨⟨m, d⟩, hmem, rfl⟩ := List.mem_map.mp hv
      obtain ⟨hfinite, k, hk, hsign⟩ := Number.exact_ofInt64_isInt d
      refine ⟨_, rfl, hfinite, ?_⟩
      show 0 ≤ exact (Number.ofInt64 d)
      rw [hk]
      exact_mod_cast hsign (hnonneg d (List.of_mem_zip hmem).2)
    · intro last hlast
      rw [hlast] at hsum
      exact (add_zero _).symm.trans hsum

/-- A counter that rises beyond the 64 bit integers, and one that is
negative all the time and comes from below them. -/
theorem changes_of_rising_beyond_integers :
    let ws : List Write := [.record ⟨"counter.hits", 2.75, ⟨0⟩⟩,
      .record ⟨"counter.debt", -1e300, ⟨1⟩⟩, .record ⟨"gauge.load", 0.0 / 0.0, ⟨2⟩⟩,
      .record ⟨"counter.hits", 1e300, ⟨3⟩⟩, .record ⟨"counter.debt", -2.5, ⟨4⟩⟩]
    (∀ d ∈ changes "counter.hits" ws, 0 ≤ d.toInt)
      ∧ ((changes "counter.hits" ws).map Int64.toInt).sum = 2 ^ 63 - 1
      ∧ ∃ d, (changes "counter.debt" ws)[1]? = some d ∧ d.toInt = 2 ^ 63 - 2 := by
  intro ws
  have hhits : readings "counter.hits" ws
      = [⟨"counter.hits", 2.75, ⟨0⟩⟩, ⟨"counter.hits", 1e300, ⟨3⟩⟩] := by
    simp [readings, ws]
  have hdebt : readings "counter.debt" ws
      = [⟨"counter.debt", -1e300, ⟨1⟩⟩, ⟨"counter.debt", -2.5, ⟨4⟩⟩] := by
    simp [readings, ws]
  have hrising : Rising (readings "counter.hits" ws) := by
    rw [hhits]
    exact ⟨by decide +kernel, by decide +kernel⟩
  obtain ⟨-, -, hall⟩ := changes_of_rising ws "counter.hits" (by decide)
  obtain ⟨-, hsteps, -⟩ := changes_of_rising ws "counter.debt" (by decide)
  obtain ⟨hnonneg, -, hsum⟩ := hall hrising
  rw [hdebt] at hsteps
  obtain ⟨d, hd, hdiff⟩ := hsteps 0 _ _ rfl rfl (Or.inr (by decide +kernel))
  have hlast : whole ⟨"counter.hits", 1e300, ⟨3⟩⟩ = 2 ^ 63 - 1 := by decide +kernel
  have hstep : whole ⟨"counter.debt", -2.5, ⟨4⟩⟩ - whole ⟨"counter.debt", -1e300, ⟨1⟩⟩
      = 2 ^ 63 - 2 := by
    decide +kernel
  refine ⟨hnonneg, (hsum _ ?_).trans hlast, d, hd, hdiff.trans hstep⟩
  rw [hhits]
  rfl

end Tracker

end MetricRelay
