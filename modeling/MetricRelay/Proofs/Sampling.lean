import MetricRelay.Proofs.Number.Order
import MetricRelay.Statsd.Client

/-!
# Rates of a client and of its measurements

The rate of a client is a fraction unless it was made from no number
(`isFraction_ofFloat_iff`), and a fraction caps the rate that a measurement
brings along (`stricter_le`): what the client samples away without that
rate it samples away with it, draw by draw (`admits_of_le`). A rate that
is no number admits nothing and caps nothing. A client with such a rate is
silent until a measurement comes with a rate above zero.
-/

namespace MetricRelay.Statsd

open Number

/-! ## Rates -/

namespace SampleRate

variable {r s : SampleRate} {x draw : Float}

/-- The rate is a number from 0 to 1. -/
def IsFraction (r : SampleRate) : Prop := 0 ≤ r.fraction ∧ r.fraction ≤ 1

theorem isNaN_zero : (0 : Float).isNaN = false := by decide

theorem isNaN_one : (1 : Float).isNaN = false := by decide

theorem zero_lt_one : (0 : Float) < 1 := by decide

theorem isFraction_ofFloat_iff : (ofFloat x).IsFraction ↔ x.isNaN = false := by
  have hends : (0 : Float) ≤ 1 := float_le_of_lt zero_lt_one
  unfold ofFloat
  split
  · next h => exact iff_of_true ⟨float_le_refl isNaN_zero, hends⟩ (float_lt_iff.mp h).1
  · next hlow =>
    split
    · next h => exact iff_of_true ⟨hends, float_le_refl isNaN_one⟩ (float_lt_iff.mp h).2.1
    · next hhigh =>
      refine ⟨fun h => (float_le_iff.mp h.1).2.1, fun hx => ⟨?_, ?_⟩⟩
      · exact float_le_of_not_lt hx isNaN_zero hlow
      · exact float_le_of_not_lt isNaN_one hx hhigh

theorem zero_lt_ofFloat_iff : 0 < (ofFloat x).fraction ↔ 0 < x := by
  unfold ofFloat
  split
  · next h =>
    refine iff_of_false (float_not_lt_of_le (float_le_refl isNaN_zero)) ?_
    exact float_not_lt_of_le (float_le_of_lt h)
  · split
    · next h => exact iff_of_true zero_lt_one (float_lt_of_lt_of_le zero_lt_one (float_le_of_lt h))
    · exact Iff.rfl

theorem isNaN_ofFloat (x : Float) : (ofFloat x).fraction.isNaN = x.isNaN := by
  cases hx : x.isNaN with
  | false => exact (float_le_iff.mp (isFraction_ofFloat_iff.mpr hx).1).2.1
  | true =>
    rw [ofFloat, if_neg (float_not_lt_of_isNaN (Or.inl hx)),
      if_neg (float_not_lt_of_isNaN (Or.inr hx))]
    exact hx

/-- A rate that is a number caps every other one. -/
theorem stricter_le (r : SampleRate) (hs : s.fraction.isNaN = false) :
    (r.stricter s).fraction ≤ s.fraction := by
  unfold stricter
  split
  · exact float_le_refl hs
  · next hr =>
    split
    · exact float_le_refl hs
    · next h => exact float_le_of_not_lt hs (Bool.eq_false_iff.mpr hr) h

/-- A rate that is no number caps none. -/
theorem zero_lt_stricter_iff (hs : s.fraction.isNaN = true) :
    0 < (r.stricter s).fraction ↔ 0 < r.fraction := by
  unfold stricter
  split
  · next hr =>
    exact iff_of_false (float_not_lt_of_isNaN (Or.inr hs)) (float_not_lt_of_isNaN (Or.inr hr))
  · rw [if_neg (float_not_lt_of_isNaN (Or.inl hs))]

theorem admits_iff :
    r.admits draw ↔ 1 ≤ r.fraction ∨ ¬ r.fraction ≤ 0 ∧ draw < r.fraction := by
  unfold admits
  split
  · next h => exact iff_of_true rfl (Or.inl h)
  · next hall =>
    rw [or_iff_right hall]
    split
    · next h => exact iff_of_false Bool.false_ne_true fun h' => h'.1 h
    · next h => rw [and_iff_right h, decide_eq_true_iff]

/-- What a rate admits at a draw, a greater one admits too. -/
theorem admits_of_le (h : r.fraction ≤ s.fraction) (hr : r.admits draw) : s.admits draw := by
  rw [admits_iff] at hr ⊢
  rcases hr with hall | ⟨hpos, hdraw⟩
  · exact Or.inl (float_le_trans hall h)
  · exact Or.inr ⟨fun hs => hpos (float_le_trans h hs), float_lt_of_lt_of_le hdraw h⟩

end SampleRate

/-! ## Clients -/

namespace Client

variable {c : Client} {own? : Option SampleRate} {reading : Reading} {draw : Float}

theorem send_eq_sampledAway_iff :
    c.send reading own? draw = .sampledAway ↔ (c.effectiveRate own?).admits draw = false := by
  unfold send
  dsimp only
  split
  · next h =>
    refine iff_of_false ?_ (by simp [h])
    split <;> nofun
  · next h => exact iff_of_true rfl (Bool.eq_false_iff.mpr h)

/-- Whatever is measured and however the dice fall, nothing is sent at
this rate of its own, or at none. -/
def Silences (c : Client) (own? : Option SampleRate) : Prop :=
  ∀ reading draw, 0 ≤ draw → draw < 1 → c.send reading own? draw = .sampledAway

theorem silences_iff : c.Silences own? ↔ ¬ 0 < (c.effectiveRate own?).fraction := by
  constructor
  · intro h hpos
    have haway := h (.elapsed "" 0 []) 0 (float_le_refl SampleRate.isNaN_zero) SampleRate.zero_lt_one
    have hadmits : (c.effectiveRate own?).admits 0 :=
      SampleRate.admits_iff.mpr (Or.inr ⟨fun hle => float_not_lt_of_le hle hpos, hpos⟩)
    exact Bool.false_ne_true ((send_eq_sampledAway_iff.mp haway).symm.trans hadmits)
  · intro hzero reading draw hdraw _
    rw [send_eq_sampledAway_iff, ← Bool.not_eq_true, SampleRate.admits_iff]
    rintro (hall | ⟨-, hbelow⟩)
    · exact hzero (float_lt_of_lt_of_le SampleRate.zero_lt_one hall)
    · exact hzero (float_lt_of_le_of_lt hdraw hbelow)

/-- A client whose rate was made from a number has a fraction for a rate,
and no rate of a measurement raises it: what is sampled away without one
is sampled away with it. A client whose rate was made from no number caps
nothing. It is silent without rates, and with them too unless one is above
zero. -/
theorem own_rates_capped (c : Client) (g e : Float) :
    let c := { c with rate := .ofFloat g }
    let own := SampleRate.ofFloat e
    (c.rate.IsFraction ↔ g.isNaN = false)
      ∧ ((c.effectiveRate (some own)).fraction ≤ c.rate.fraction ↔ g.isNaN = false)
      ∧ (g.isNaN = false → ∀ reading draw, c.send reading none draw = .sampledAway →
          c.send reading (some own) draw = .sampledAway)
      ∧ ((c.Silences none → c.Silences (some own)) ↔ ¬ (g.isNaN = true ∧ 0 < e)) := by
  intro c own
  have hnumber : c.rate.fraction.isNaN = g.isNaN := SampleRate.isNaN_ofFloat g
  have hcapped : g.isNaN = false → (c.effectiveRate (some own)).fraction ≤ c.rate.fraction :=
    fun hg => SampleRate.stricter_le own (hnumber.trans hg)
  refine ⟨SampleRate.isFraction_ofFloat_iff, ⟨fun hle => ?_, hcapped⟩, ?_, ?_⟩
  · exact hnumber.symm.trans (float_le_iff.mp hle).2.1
  · intro hg reading draw haway
    rw [send_eq_sampledAway_iff, ← Bool.not_eq_true] at haway ⊢
    exact fun hown => haway (SampleRate.admits_of_le (hcapped hg) hown)
  · rw [silences_iff, silences_iff]
    cases hg : g.isNaN with
    | false =>
      refine iff_of_true (fun hsilent hown => hsilent ?_) nofun
      exact float_lt_of_lt_of_le hown (hcapped hg)
    | true =>
      have hsilent : ¬ 0 < c.rate.fraction := float_not_lt_of_isNaN (Or.inr (hnumber.trans hg))
      have hown : 0 < (c.effectiveRate (some own)).fraction ↔ 0 < e :=
        (SampleRate.zero_lt_stricter_iff (hnumber.trans hg)).trans SampleRate.zero_lt_ofFloat_iff
      rw [hown, and_iff_right rfl]
      exact ⟨fun h => h hsilent, fun h _ => h⟩

/-- A quarter caps a rate that was made from four. -/
theorem own_rates_capped_of_quarter :
    let c : Client := { Client.bare with rate := .ofFloat 0.25 }
    let reading : Reading := .elapsed "flush" 4000000 []
    c.send reading none 0.5 = .sampledAway
      ∧ c.send reading (some (.ofFloat 4)) 0.5 = .sampledAway
      ∧ c.send reading (some (.ofFloat 4)) 0 = .line "flush:4|ms|@0.25" := by
  intro c reading
  obtain ⟨-, -, haway, -⟩ := own_rates_capped Client.bare 0.25 4
  have hnone : c.send reading none 0.5 = .sampledAway := by decide
  exact ⟨hnone, haway (by decide) reading 0.5 hnone, by decide⟩

/-- A client whose rate is no number sends what has a rate of its own and
nothing else. -/
theorem own_rate_raised :
    let c : Client := ⟨"tally", .empty, .ofFloat (0 / 0), none⟩
    ¬ c.rate.IsFraction ∧ c.Silences none
      ∧ ¬ c.Silences (some (.ofFloat 1))
      ∧ c.send (.plain ⟨.distribution, "d", .integer 10, []⟩) (some (.ofFloat 1)) 0.5
        = .line "tally.d:10|d" := by
  intro c
  have hnan : (0 / 0 : Float).isNaN = true := by decide
  have hline : c.send (.plain ⟨.distribution, "d", .integer 10, []⟩) (some (.ofFloat 1)) 0.5
      = .line "tally.d:10|d" := by decide +kernel
  refine ⟨?_, ?_, ?_, hline⟩
  · rw [SampleRate.isFraction_ofFloat_iff, hnan]
    exact Bool.noConfusion
  · rw [silences_iff]
    exact float_not_lt_of_isNaN (Or.inr ((SampleRate.isNaN_ofFloat _).trans hnan))
  · intro hsilent
    have haway := hsilent (.plain ⟨.distribution, "d", .integer 10, []⟩) 0.5 (by decide) (by decide)
    rw [hline] at haway
    cases haway

end Client

end MetricRelay.Statsd
