import MetricRelay.Metric
import MetricRelay.Trail

/-!
# Sinks

A `Sink σ ε` takes writes of metrics and keeps a state of type `σ`: to
each write it replies with an answer, a refusal being an `ε`, the state
afterwards and the trail of the write. A reset is advisory: a sink that
cannot express it answers and does nothing.
-/

namespace MetricRelay

/-- What can be asked of a sink. -/
inductive Write where
  /-- Take an absolute reading. -/
  | record (metric : Metric)
  /-- Apply a signed change. -/
  | increment (delta : Delta)
  /-- Reset the metric of a name, as asked for at an instant. -/
  | reset (name : String) (asked : Instant)
deriving DecidableEq

/-- The outcome of a step on a state. -/
structure Reply (σ ε α : Type) where
  /-- The result, or why there is none. -/
  answer : Except ε α
  state : σ
  /-- What the step leaves behind. -/
  trail : Trail

namespace Reply

variable {σ τ ε δ α : Type}

/-- The reply that answers and leaves nothing. -/
def ok (answer : α) (state : σ) : Reply σ ε α :=
  ⟨.ok answer, state, .none⟩

/-- The reply with more in front of its trail. -/
def after (trail : Trail) (r : Reply σ ε α) : Reply σ ε α :=
  { r with trail := trail ++ r.trail }

/-- The reply with its state seen as part of a larger one. -/
def mapState (f : σ → τ) (r : Reply σ ε α) : Reply τ ε α :=
  ⟨r.answer, f r.state, r.trail⟩

/-- The reply with its refusal explained further. -/
def mapError (f : ε → δ) (r : Reply σ ε α) : Reply σ δ α :=
  ⟨r.answer.mapError f, r.state, r.trail⟩

end Reply

/-- A consumer of writes. -/
structure Sink (σ ε : Type) where
  accept : σ → Write → Reply σ ε Unit

namespace Sink

variable {σ ε : Type}

/-- The replies to a sequence of writes, in order. -/
def replies (k : Sink σ ε) : σ → List Write → List (Reply σ ε Unit)
  | _, [] => []
  | s, w :: ws =>
    let r := k.accept s w
    r :: k.replies r.state ws

/-- The state after a sequence of writes. -/
def final (k : Sink σ ε) (s : σ) (ws : List Write) : σ :=
  ws.foldl (fun s w => (k.accept s w).state) s

def answers (k : Sink σ ε) (s : σ) (ws : List Write) : List (Except ε Unit) :=
  (k.replies s ws).map (·.answer)

def measurements (k : Sink σ ε) (s : σ) (ws : List Write) : List Health :=
  (k.replies s ws).flatMap (·.trail.measured)

end Sink

end MetricRelay
