import MetricRelay.Statsd.Measurement

/-!
# What the relay measures about itself

`Health` lists the internal measurements; `Health.measurement` gives each
its name, value and tags.
-/

namespace MetricRelay

/-- The two kinds of messages on the bus. -/
inductive Variant where
  /-- An absolute reading. -/
  | metric
  /-- A signed change. -/
  | delta
deriving Repr, DecidableEq

namespace Variant

def text : Variant → String
  | metric => "metric"
  | delta => "delta"

end Variant

inductive StoreOp where
  | record
  | increment
  | reset
deriving Repr, DecidableEq

namespace StoreOp

def text : StoreOp → String
  | record => "record"
  | increment => "increment"
  | reset => "reset"

end StoreOp

/-- The two ways of publishing. -/
inductive Channel where
  /-- Through a broker. -/
  | sink
  /-- Through an aggregation flow. -/
  | flow
deriving Repr, DecidableEq

namespace Channel

def text : Channel → String
  | sink => "sink"
  | flow => "flow"

end Channel

/-- An internal measurement. -/
inductive Health where
  /-- A write into the repository. -/
  | stored (op : StoreOp)
  /-- A delta derived from a counter reading, the first of its counter or
  not. -/
  | derived (first : Bool)
  /-- The number of counters whose last reading is remembered. -/
  | tracked (counters : Nat)
  /-- A metric left out of the aggregates for want of a key. -/
  | skipped
  /-- The bytes of a payload to be published. -/
  | payloadSize (variant : Variant) (bytes : Nat)
  /-- A message the bus took. -/
  | published (variant : Variant) (channel : Channel)
  /-- A message the bus refused. -/
  | refused (variant : Variant)
  /-- A decoded message, its namespace from a header or not. -/
  | received (fromHeader : Bool)
  /-- A message whose payload did not decode. -/
  | undecodable
deriving Repr, DecidableEq

namespace Health

def measurement : Health → Statsd.Measurement
  | stored op => ⟨.count, "metrics.repository.write", .integer 1, [("op", op.text)]⟩
  | derived first =>
    ⟨.count, "metrics.delta.derived", .integer 1, [("first", if first then "true" else "false")]⟩
  | tracked counters => ⟨.gauge, "metrics.delta.tracked", .integer counters, []⟩
  | skipped => ⟨.count, "metrics.aggregate.skipped", .integer 1, []⟩
  | payloadSize variant bytes =>
    ⟨.distribution, "bus.message.size", .integer bytes, [("variant", variant.text)]⟩
  | published variant channel =>
    ⟨.count, "bus.message.published", .integer 1,
      [("variant", variant.text), ("channel", channel.text)]⟩
  | refused variant => ⟨.count, "bus.publish.error", .integer 1, [("variant", variant.text)]⟩
  | received fromHeader =>
    ⟨.count, "bus.message.received", .integer 1,
      [("prefix", if fromHeader then "header" else "default")]⟩
  | undecodable => ⟨.count, "bus.message.invalid", .integer 1, []⟩

/-- The line of a measurement as the bare client of a capture writes
it. -/
def line (h : Health) : String :=
  h.measurement.line "" none []

end Health

end MetricRelay
