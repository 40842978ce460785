import MetricRelay.Bus.Publisher
import MetricRelay.Routing

/-!
# Publishing through a broker

A `Broker` publishes every write to one exchange under the producer's
prefix and the metric name. A reset is published as an absolute zero,
where the name allows one.
-/

namespace MetricRelay

/-- A producer that publishes through a broker. -/
structure Broker where
  /-- Where and how metrics are published. -/
  routing : Routing
  addHeaders : Bool

namespace Broker

def headersFor (b : Broker) (name : String) : Headers :=
  if b.addHeaders then b.routing.headersFor name else .empty

/-- How the broker addresses messages, and what it logs. -/
def publisher (b : Broker) : Publisher where
  channel := .sink
  address name payload := ⟨b.routing.exchange, b.routing.key name, payload, b.headersFor name⟩
  unencodable variant error :=
    [⟨.error, "tally_bus::sink",
      "failed to encode " ++ variant.text ++ ": " ++ Log.withCauses error.texts, []⟩]
  undelivered variant name reason :=
    [⟨.error, "tally_bus::sink",
      "failed to publish " ++ variant.text ++ ": "
        ++ Log.withCauses (PublishError.delivery reason),
      [("routing_key", b.routing.key name)]⟩]

def sink (b : Broker) : Sink Bus PublishError where
  accept bus w :=
    match w with
    | .record m => b.publisher.publish bus .metric m
    | .increment d => b.publisher.publish bus .delta d.change
    | .reset name asked =>
      match Metric.counterReset? name asked with
      | some zero => b.publisher.publish bus .metric zero
      | none => .ok () bus

end Broker

end MetricRelay
