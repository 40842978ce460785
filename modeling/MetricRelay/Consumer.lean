import MetricRelay.Flow
import MetricRelay.Routing

/-!
# The consuming side

A consumer decodes messages, puts the producer's namespace before the
metric name and records the metric in a local sink. A `Listener` takes
messages of brokers and has a namespace of its own for messages without
one; the inbound side of a flow leaves their names as they are.
-/

namespace MetricRelay

/-- Why a message did not reach the local sink. -/
inductive ReceiveError (ε : Type) where
  /-- The payload does not decode. -/
  | invalidPayload (fault : Wire.Fault)
  /-- The local sink refused the metric. -/
  | forward (cause : ε)
deriving Repr, DecidableEq

namespace ReceiveError

def texts {ε : Type} (causes : ε → List String) : ReceiveError ε → List String
  | invalidPayload fault => ["failed to decode metric payload", fault.message]
  | forward cause => "failed to forward metric to the local sink" :: causes cause

end ReceiveError

/-- A metric renamed, and the trail of that. -/
structure Received where
  metric : Metric
  trail : Trail

/-- The metric under the namespace of a header, if there is one, else
under the text `otherwise`. -/
def namespaced (header? : Option String) (otherwise : String) (m : Metric) : Received :=
  match header? with
  | some header => ⟨m.within (header ++ "."), .measure (.received true)⟩
  | none => ⟨m.within otherwise, .measure (.received false)⟩

/-! ## Listeners -/

/-- A consumer of messages of brokers. -/
structure Listener where
  /-- What is put before the names of metrics without a namespace of
  their own. -/
  beginning : String
deriving Repr, DecidableEq

namespace Listener

/-- A listener whose default namespace is the given text, with a dot
behind it unless it is empty or has one. -/
def make (nameSpace : String) : Listener :=
  if nameSpace = "" || Text.endsWithChar nameSpace '.' then ⟨nameSpace⟩
  else ⟨nameSpace ++ "."⟩

/-- The listener that leaves names without a namespace as they are. -/
def plain : Listener := ⟨""⟩

def receivedEvent (m : Metric) : Log.Event :=
  ⟨.trace, "tally_bus::listener", "received metric", [("metric", m.display)]⟩

def droppedEvent (fault : Wire.Fault) : Log.Event :=
  ⟨.warn, "tally_bus::listener", "dropping undecodable metric: " ++ fault.message, []⟩

/-- Renames a decoded metric. -/
def receive (l : Listener) (header? : Option String) (m : Metric) : Received :=
  let r := namespaced header? l.beginning m
  ⟨r.metric, r.trail ++ .log (receivedEvent r.metric)⟩

/-- Records a decoded metric in the local sink. -/
def process {σ ε : Type} (l : Listener) (k : Sink σ ε) (s : σ) (header? : Option String)
    (m : Metric) : Reply σ ε Unit :=
  let r := l.receive header? m
  (k.accept s (.record r.metric)).after r.trail

end Listener

/-! ## Inbound flows -/

namespace Flow

/-- Renames a decoded metric. -/
def enrich (headers : Headers) (m : Metric) : Received :=
  namespaced (headers.get? flowPrefixHeader) "" m

end Flow

/-! ## Consumers -/

/-- The two kinds of consumers. -/
inductive Consumer where
  /-- A consumer of messages of brokers. -/
  | listener (l : Listener)
  /-- The inbound side of an aggregation flow. -/
  | inbound
deriving Repr, DecidableEq

namespace Consumer

def receive (c : Consumer) (headers : Headers) (m : Metric) : Received :=
  match c with
  | listener l => l.receive (headers.get? metricPrefixHeader) m
  | inbound => Flow.enrich headers m

/-- What is logged about a message that is dropped. -/
def dropped (c : Consumer) (fault : Wire.Fault) : List Log.Event :=
  match c with
  | listener _ => [Listener.droppedEvent fault]
  | inbound => []

/-- Takes a message: decodes it and records the metric in the local
sink. -/
def onMessage {σ ε : Type} (c : Consumer) (k : Sink σ ε) (now : Instant) (s : σ)
    (payload : List UInt8) (headers : Headers) : Reply σ (ReceiveError ε) Unit :=
  match Wire.decode now payload with
  | .error fault =>
    ⟨.error (.invalidPayload fault), s, ⟨[.undecodable], c.dropped fault⟩⟩
  | .ok m =>
    let r := c.receive headers m
    ((k.accept s (.record r.metric)).after r.trail).mapError .forward

end Consumer

end MetricRelay
