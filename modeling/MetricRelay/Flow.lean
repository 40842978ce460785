import MetricRelay.Bus.Publisher

/-!
# Aggregation flows, the producing side

A `Flow` publishes every metric with an empty routing key and one header
that names the producer. It has no resets.
-/

namespace MetricRelay

/-- The header with the producer's prefix. -/
def flowPrefixHeader : String := "metricPrefix"

/-- A producer that publishes through an aggregation flow. -/
structure Flow where
  exchange : String
  /-- The producer's prefix. -/
  nameSpace : String
deriving Repr, DecidableEq

namespace Flow

def headers (f : Flow) : Headers :=
  Table.empty.insert flowPrefixHeader f.nameSpace

/-- How the flow addresses messages, and what it logs. -/
def publisher (f : Flow) : Publisher where
  channel := .flow
  address _ payload := ⟨f.exchange, "", payload, f.headers⟩
  unencodable _ _ := []
  undelivered variant _ reason :=
    [⟨.error, "tally_bus::flows",
      "failed to publish " ++ variant.text ++ ": "
        ++ Log.withCauses (PublishError.delivery reason),
      []⟩]

def resetIgnored (name : String) : Log.Event :=
  ⟨.trace, "tally_bus::flows", "ignoring reset, not supported by aggregation flows",
    [("metric", name)]⟩

def sink (f : Flow) : Sink Bus PublishError where
  accept bus w :=
    match w with
    | .record m => f.publisher.publish bus .metric m
    | .increment d => f.publisher.publish bus .delta d.change
    | .reset name _ => ⟨.ok (), bus, .log (resetIgnored name)⟩

end Flow

end MetricRelay
