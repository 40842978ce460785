import MetricRelay.Bus.Envelope

/-!
# Routing

Where a producer's metrics go: the exchange, the routing key made of the
producer's prefix and the metric name, and the headers. Prefixes are
normalized once, when the routing is made.
-/

namespace MetricRelay

def metricNameHeader : String := "metric.name"

/-- The header with the producer's prefix. -/
def metricPrefixHeader : String := "metric.prefix"

/-- Where and how a producer's metrics are published. -/
structure Routing where
  exchange : String
  /-- The normalized prefix, without a dot at its end. -/
  nameSpace : String
  /-- Headers of every message. -/
  fixedHeaders : Headers

namespace Routing

/-- The prefix of producers that have none. -/
def defaultNameSpace : String := "metrics"

def defaultExchange : String := "metrics"

/-- A prefix without the dots at its end; the default one if nothing is
left. -/
def normalize (given? : Option String) : String :=
  match given? with
  | none => defaultNameSpace
  | some given =>
    let trimmed := Text.trimTrailing '.' given
    if trimmed = "" then defaultNameSpace else trimmed

/-- The routing with a prefix that is yet to be normalized. -/
def make (exchange : String) (given? : Option String) (fixedHeaders : Headers) : Routing :=
  ⟨exchange, normalize given?, fixedHeaders⟩

def key (r : Routing) (name : String) : String :=
  r.nameSpace ++ "." ++ name

/-- The headers of a metric name. Fixed headers take precedence. -/
def headersFor (r : Routing) (name : String) : Headers :=
  ((Table.empty.insert metricNameHeader name).insert metricPrefixHeader r.nameSpace).insertAll
    r.fixedHeaders

end Routing

end MetricRelay
