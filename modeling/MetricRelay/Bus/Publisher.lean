import MetricRelay.Bus.Envelope
import MetricRelay.Sink

/-!
# Publishing

A `Publisher` says how metrics are addressed and what is logged when one
does not get onto the bus. Every message is encoded, measured, addressed
and handed to the bus, and then counted as published or refused.
-/

namespace MetricRelay

/-- Why a metric was not published. -/
inductive PublishError where
  /-- It has no finite value, so no consumer could decode it. -/
  | nonFinite (name : String)
  /-- The bus refused it. -/
  | refused (reason : String)
deriving Repr, DecidableEq

namespace PublishError

/-- The texts of the failure to deliver a message. -/
def delivery (reason : String) : List String :=
  ["failed to deliver message to the bus", reason]

def texts : PublishError → List String
  | nonFinite name => [Wire.NonFinite.message ⟨name⟩]
  | refused reason => "failed to send message" :: delivery reason

end PublishError

/-- How metrics are addressed and failures logged. -/
structure Publisher where
  /-- What published messages are counted as. -/
  channel : Channel
  /-- The message with a payload for a metric name. -/
  address : (name : String) → (payload : List UInt8) → Envelope
  /-- The events that a metric could not be encoded. -/
  unencodable : Variant → PublishError → List Log.Event
  /-- The events that the bus refused a message. -/
  undelivered : Variant → (name reason : String) → List Log.Event

namespace Publisher

/-- Publishes a metric as a message of the given variant. -/
def publish (p : Publisher) (bus : Bus) (variant : Variant) (m : Metric) :
    Reply Bus PublishError Unit :=
  match Wire.encode m with
  | .error e =>
    let error := PublishError.nonFinite e.name
    ⟨.error error, bus, ⟨[], p.unencodable variant error⟩⟩
  | .ok payload =>
    let size := Health.payloadSize variant payload.length
    match bus.publish (p.address m.name payload) with
    | .error reason =>
      ⟨.error (.refused reason), bus,
        ⟨[size, .refused variant], p.undelivered variant m.name reason⟩⟩
    | .ok bus => ⟨.ok (), bus, ⟨[size, .published variant p.channel], []⟩⟩

end Publisher

end MetricRelay
