import MetricRelay.Sink
import MetricRelay.Table

/-!
# Deltas of counters

A `Tracker` stands before a sink that only understands changes of
counters. It remembers the last reading of every counter and sends the
difference of the whole parts on, at the first reading the whole part
itself. The difference is taken in 64 bits and wraps. Other metrics and
increments pass through; resets end here.

What the tracker does to a write is `Tracker.step`, which does not know
the sink behind it; `Tracker.before` puts it before one.
-/

namespace MetricRelay

/-- The last reading of each counter. -/
structure Tracker where
  /-- Readings under the names of their counters. -/
  last : Table Metric

namespace Tracker

/-- The tracker that has seen nothing. -/
def fresh : Tracker := ⟨.empty⟩

/-- The change of whole parts from the last reading, if there was one, to
`reading`. -/
def difference (last? : Option Metric) (reading : Metric) : Int64 :=
  match last? with
  | none => Number.truncate reading.value
  | some last => Number.truncate reading.value - Number.truncate last.value

/-- The change that a counter reading stands for. -/
def change (t : Tracker) (reading : Metric) : Int64 :=
  difference (t.last.get? reading.name) reading

def remember (t : Tracker) (reading : Metric) : Tracker :=
  ⟨t.last.insert reading.name reading⟩

/-- Derives the delta of a counter reading and remembers the reading.
Nothing is derived from other metrics. -/
def derive (t : Tracker) (reading : Metric) : Option Delta × Tracker × Trail :=
  if reading.isCounter then
    let tracker := t.remember reading
    let first := (t.last.get? reading.name).isNone
    (some ⟨{ reading with value := Number.ofInt64 (t.change reading) }⟩, tracker,
      .measure (.derived first) ++ .measure (.tracked tracker.last.size))
  else (none, t, .none)

def resetIgnored (name : String) : Log.Event :=
  ⟨.trace, "tally_metrics::delta", "ignoring reset, not supported by delta tracking",
    [("metric", name)]⟩

/-- What a write becomes: the write that is sent on, if any, the tracker
afterwards and the trail. -/
def step (t : Tracker) : Write → Option Write × Tracker × Trail
  | .record m =>
    match t.derive m with
    | (some d, t, trail) => (some (.increment d), t, trail)
    | (none, t, trail) => (some (.record m), t, trail)
  | .increment d => (some (.increment d), t, .none)
  | .reset name _ => (none, t, .log (resetIgnored name))

/-- Hands what becomes of a write on to `send`, behind which the state is
`s`. -/
def relay {σ ε : Type} (t : Tracker) (s : σ) (send : Write → Reply σ ε Unit) (w : Write) :
    Reply (Tracker × σ) ε Unit :=
  match t.step w with
  | (none, t, trail) => ⟨.ok (), (t, s), trail⟩
  | (some w, t, trail) => ((send w).mapState (t, ·)).after trail

/-- The sink `down` behind a tracker. -/
def before {σ ε : Type} (down : Sink σ ε) : Sink (Tracker × σ) ε where
  accept s w := s.1.relay s.2 (down.accept s.2) w

end Tracker

end MetricRelay
