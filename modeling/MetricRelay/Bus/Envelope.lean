import MetricRelay.Health
import MetricRelay.Table
import MetricRelay.Wire.Reader
import MetricRelay.Wire.Writer

/-!
# Messages on the bus

An `Envelope` is a payload with its destination, routing key and headers.
The `Bus` keeps envelopes in the order in which they were published until
they are drained; it can be set to refuse every one.
-/

namespace MetricRelay

/-- Named texts that go with a payload. -/
abbrev Headers := Table String

/-- A message on the bus. -/
structure Envelope where
  destination : String
  /-- The key by which the broker directs the message; it may be empty. -/
  routingKey : String
  /-- The metric as written for the wire. -/
  payload : List UInt8
  headers : Headers

namespace Envelope

/-- The metric that the message carries; deltas are written like
metrics. -/
def metric (e : Envelope) (now : Instant) : Except Wire.Fault Metric :=
  Wire.decode now e.payload

end Envelope

/-- The messages that are under way. -/
structure Bus where
  /-- The messages, the oldest first. -/
  queue : List Envelope
  /-- Why every message is refused, if it is. -/
  refusal : Option String

namespace Bus

def empty : Bus := ⟨[], none⟩

/-- A bus that refuses every message for the given reason. -/
def failing (reason : String) : Bus := ⟨[], some reason⟩

/-- Puts a message behind the others, or tells why not. -/
def publish (b : Bus) (e : Envelope) : Except String Bus :=
  match b.refusal with
  | some reason => .error reason
  | none => .ok { b with queue := b.queue ++ [e] }

/-- All messages, and the bus without them. -/
def drain (b : Bus) : List Envelope × Bus :=
  (b.queue, { b with queue := [] })

end Bus

end MetricRelay
