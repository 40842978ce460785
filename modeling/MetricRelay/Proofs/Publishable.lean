import MetricRelay.Proofs.Number.Wholes
import MetricRelay.Proofs.Publishing
import MetricRelay.Proofs.Telescoping
import MetricRelay.Proofs.Wire.RoundTrip

/-!
# Counters can always be published

A producer refuses a metric without a finite value. Before a counter gets
there a tracker has made an integer of 64 bits out of its reading, whatever
that was and whatever the one before it was, and an integer is a finite
number (`Number.exact_ofInt64_isInt`). So with a tracker in front only the
other metrics can be refused for their values, and such a refusal leaves
nothing behind. What a message is read back as is finite too, and the
integer itself where the number codec gives that back.
-/

namespace MetricRelay

open Number (exact ofInt64)

namespace Pipeline.Producer

variable {p : Producer} {bus : Bus} {w : Write} {r : Reply Bus PublishError Unit}
  {variant : Variant} {m : Metric}

/-! ## Outcomes by the value of the message -/

theorem Outcome.of_isFinite (h : p.Outcome bus w r) (hw : p.message? w = some (variant, m))
    (hm : m.value.isFinite) (hbus : bus.refusal = none) :
    r.answer = .ok () ∧ r.state = { bus with queue := bus.queue ++ [p.envelope m] } := by
  cases h with
  | nothing logged hw' => cases hw.symm.trans hw'
  | unencodable logged hw' hm' =>
    cases hw.symm.trans hw'
    exact absurd hm hm'
  | refused logged hw' hm' hbus' => cases hbus.symm.trans hbus'
  | taken logged hw' hm' hbus' =>
    cases hw.symm.trans hw'
    exact ⟨rfl, rfl⟩

theorem Outcome.of_not_isFinite (h : p.Outcome bus w r) (hw : p.message? w = some (variant, m))
    (hm : ¬ m.value.isFinite) : r.answer = .error (.nonFinite m.name) ∧ r.state = bus := by
  cases h with
  | nothing logged hw' => cases hw.symm.trans hw'
  | unencodable logged hw' hm' =>
    cases hw.symm.trans hw'
    exact ⟨rfl, rfl⟩
  | refused logged hw' hm' hbus' =>
    cases hw.symm.trans hw'
    exact absurd hm' hm
  | taken logged hw' hm' hbus' =>
    cases hw.symm.trans hw'
    exact absurd hm' hm

theorem Outcome.refusal_eq (h : p.Outcome bus w r) : r.state.refusal = bus.refusal := by
  cases h <;> rfl

end Pipeline.Producer

namespace Tracker

open Pipeline (Producer Readable)

variable {p : Producer} {t : Tracker} {bus : Bus} {m : Metric}

theorem readable_sent (hm : m.isCounter) (hobserved : m.observed.InRange) (t : Tracker) :
    Readable (t.sent m).change := by
  refine ⟨?_, (Number.exact_ofInt64_isInt (t.change m)).1, hobserved⟩
  -- the empty name does not begin with `counter.`
  intro hname
  rw [Metric.isCounter, show m.name = "" from hname] at hm
  exact absurd hm (by decide)

/-- What becomes of a reading by the tracker and the producer behind it, in
the state `st`. -/
structure Answered (st : Tracker × Bus) (m : Metric)
    (r : Reply (Tracker × Bus) PublishError Unit) : Prop where
  counter : m.isCounter → r.answer = .ok () ∧ ∃ e x, r.state.2.queue = st.2.queue ++ [e]
    ∧ (∀ now, e.metric now = .ok ⟨m.name, x, .ofMillis m.observed.millis⟩) ∧ x.isFinite
    ∧ (Wire.Restored (ofInt64 (st.1.change m)) →
      x = ofInt64 (st.1.change m) ∧ ∃ k : Int, exact x = k)
  nonFinite : (∃ name, r.answer = .error (.nonFinite name)) ↔ ¬ m.isCounter ∧ ¬ m.value.isFinite
  /-- Neither the cache nor the bus has changed. -/
  unchanged : ¬ m.isCounter → ¬ m.value.isFinite →
    r.answer = .error (.nonFinite m.name) ∧ r.state = st

theorem answered_accept (p : Producer) (t : Tracker) (hbus : bus.refusal = none)
    (hobserved : m.observed.InRange) :
    Answered (t, bus) m ((before p.sink).accept (t, bus) (.record m)) := by
  rw [accept_before]
  by_cases hm : m.isCounter
  · rw [(step_counter hm t).1]
    obtain ⟨hfinite, k, hk, -⟩ := Number.exact_ofInt64_isInt (t.change m)
    obtain ⟨hanswer, hstate⟩ :=
      (p.outcome_accept bus (.increment (t.sent m))).of_isFinite rfl hfinite hbus
    constructor
    case counter =>
      intro _
      obtain ⟨-, -, -, -, -, -, hread⟩ := Wire.NumberToken.read?_characters hfinite
      refine ⟨hanswer, p.envelope (t.sent m).change, Wire.reread (ofInt64 (t.change m)),
        congrArg Bus.queue hstate, p.metric_envelope (readable_sent hm hobserved t), hread, ?_⟩
      intro hrestored
      rw [hrestored]
      exact ⟨rfl, k, hk⟩
    case nonFinite =>
      constructor
      · rintro ⟨name, hname⟩
        cases hanswer.symm.trans hname
      · rintro ⟨hother, -⟩
        exact absurd hm hother
    case unchanged => exact fun hother => absurd hm hother
  · rw [(step_other hm t).1, (step_other hm t).2]
    have houtcome := p.outcome_accept bus (.record m)
    have hmessage : p.message? (.record m) = some (.metric, m) := rfl
    constructor
    case counter => exact fun hcounter => absurd hcounter hm
    case nonFinite =>
      constructor
      · rintro ⟨name, hname⟩
        refine ⟨hm, fun hfinite => ?_⟩
        have hok := (houtcome.of_isFinite hmessage hfinite hbus).1
        cases hok.symm.trans hname
      · rintro ⟨-, hvalue⟩
        exact ⟨_, (houtcome.of_not_isFinite hmessage hvalue).1⟩
    case unchanged =>
      intro _ hvalue
      obtain ⟨hanswer, hstate⟩ := houtcome.of_not_isFinite hmessage hvalue
      exact ⟨hanswer, Prod.ext rfl hstate⟩

/-! ## Runs -/

theorem refusal_accept_before (p : Producer) (t : Tracker) (bus : Bus) (w : Write) :
    ((before p.sink).accept (t, bus) w).state.2.refusal = bus.refusal := by
  rw [accept_before]
  cases (t.step w).1 with
  | none => rfl
  | some v => exact (p.outcome_accept bus v).refusal_eq

theorem refusal_final_before (p : Producer) (st : Tracker × Bus) (ws : List Write) :
    ((before p.sink).final st ws).2.refusal = st.2.refusal := by
  induction ws generalizing st with
  | nil => rfl
  | cons w ws ih => exact (ih _).trans (refusal_accept_before p st.1 st.2 w)

/-- In every run of a tracker before a broker or a flow, over a bus that
takes messages, each reading of a counter is answered and leads to one
message with its name, its instant and an integral value, whatever number
was read, given that the number codec gives the integer back. Other metrics
are refused just when their values are not finite, and then nothing has
changed. -/
theorem counters_publishable (p : Producer) (t : Tracker) (queue : List Envelope)
    (ws : List Write) (hws : ∀ m, .record m ∈ ws → m.observed.InRange) :
    let k := before p.sink
    let start : Tracker × Bus := (t, ⟨queue, none⟩)
    (k.replies start ws).length = ws.length
      ∧ ∀ i m r, ws[i]? = some (.record m) → (k.replies start ws)[i]? = some r →
          Answered (k.final start (ws.take i)) m r := by
  intro k start
  refine ⟨k.length_replies start ws, ?_⟩
  intro i m r hm hr
  obtain rfl := k.eq_of_getElem?_replies hm hr
  have hbus : (k.final start (ws.take i)).2.refusal = none :=
    refusal_final_before p start (ws.take i)
  exact answered_accept p _ hbus (hws m (List.mem_of_getElem? hm))

/-- A counter that is not a number at first and infinite then, and a gauge
that is not a number. -/
theorem counters_publishable_of_nan :
    let k := before (Producer.broker ⟨.make "metrics" (some "app") .empty, true⟩).sink
    let start : Tracker × Bus := (fresh, ⟨[], none⟩)
    let ws : List Write := [.record ⟨"counter.hits", 0.0 / 0.0, ⟨1⟩⟩,
      .record ⟨"counter.hits", -1.0 / 0.0, ⟨-1⟩⟩, .record ⟨"gauge.load", 0.0 / 0.0, ⟨2⟩⟩]
    ∃ r r', (k.replies start ws).drop 1 = [r, r']
      ∧ r.answer = .ok ()
      ∧ (∃ e x, r.state.2.queue = (k.final start (ws.take 1)).2.queue ++ [e]
        ∧ (∀ now, e.metric now = .ok ⟨"counter.hits", x, .ofMillis (-1)⟩)
        ∧ x.isFinite ∧ ∃ n : Int, exact x = n)
      ∧ r'.answer = .error (.nonFinite "gauge.load")
      ∧ r'.state = k.final start (ws.take 2) := by
  intro k start ws
  have hws : ∀ m, .record m ∈ ws → m.observed.InRange := by
    intro m hm
    have hall : ∀ w ∈ ws, Pipeline.Sound w := by decide
    exact (hall _ hm).2
  have hcalls : ∀ i m r, ws[i]? = some (.record m) → (k.replies start ws)[i]? = some r →
      Answered (k.final start (ws.take i)) m r :=
    (counters_publishable _ fresh [] ws hws).2
  obtain ⟨hok, e, x, hqueue, hmetric, hx, hcodec⟩ := (hcalls 1 _ _ rfl rfl).counter (by decide)
  obtain ⟨-, hint⟩ := hcodec (by decide +kernel)
  obtain ⟨hrefused, hstate⟩ := (hcalls 2 _ _ rfl rfl).unchanged (by decide) (by decide)
  have hmillis : Instant.millis ⟨-1⟩ = -1 := by decide
  dsimp only at hmetric
  rw [hmillis] at hmetric
  exact ⟨_, _, rfl, hok, ⟨e, x, hqueue, hmetric, hx, hint⟩, hrefused, hstate⟩

end Tracker

end MetricRelay
