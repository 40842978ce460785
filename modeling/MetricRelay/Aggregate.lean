import MetricRelay.KeyPattern
import MetricRelay.Repository

/-!
# Aggregates across producers

An `Aggregator` strips the segments that identify producers from metric
names and combines the metrics that share the key that remains: counters
are added up, of other metrics the latest stands, the earlier in order
where several are latest. Aggregates are computed anew by every read.
-/

namespace MetricRelay

/-- How aggregates are keyed and named. -/
structure Aggregator where
  /-- Which segments make up a key. -/
  pattern : KeyPattern
  /-- What the names of aggregates begin with. -/
  beginning : String
deriving Repr, DecidableEq

namespace Aggregator

def defaultBeginning : String := "aggregate."

def default : Aggregator := ⟨.default, defaultBeginning⟩

instance : Inhabited Aggregator := ⟨default⟩

/-- The aggregate `m` combined with another metric of its key. -/
def combine (counts : Bool) (m source : Metric) : Metric :=
  if counts then
    { m with value := m.value + source.value, observed := m.observed.latest source.observed }
  else if source.observed.isAfter m.observed then
    { m with value := source.value, observed := source.observed }
  else m

/-- The aggregates with one more metric, whose key is given. -/
def add (a : Aggregator) (aggregates : Table Metric) (key : String) (source : Metric) :
    Table Metric :=
  match aggregates.get? key with
  | none => aggregates.insert key { source with name := a.beginning ++ key }
  | some m =>
    aggregates.insert key (combine (Family.of? key == some .counter) m source)

/-- The aggregates under their keys. -/
def aggregates (a : Aggregator) (sources : List Metric) : Table Metric :=
  sources.foldl
    (fun aggregates source =>
      match a.pattern.keyFor? source.name with
      | none => aggregates
      | some key => a.add aggregates key source)
    .empty

/-- The trail of computing the aggregates: each metric without a key is
counted. -/
def trail (a : Aggregator) (sources : List Metric) : Trail :=
  ⟨(sources.filter fun m => (a.pattern.keyFor? m.name).isNone).map fun _ => .skipped, []⟩

/-- All aggregates in the order of their names. -/
def all (a : Aggregator) (sources : List Metric) : List Metric × Trail :=
  ((a.aggregates sources).values, a.trail sources)

def count (a : Aggregator) (sources : List Metric) : Nat × Trail :=
  ((a.aggregates sources).size, a.trail sources)

/-- The aggregate of a name. Nothing is computed for a name that does not
begin like those of aggregates. -/
def find? (a : Aggregator) (sources : List Metric) (name : String) : Option Metric × Trail :=
  match Text.stripBeginning? name a.beginning with
  | none => (none, .none)
  | some key => ((a.aggregates sources).get? key, a.trail sources)

end Aggregator

end MetricRelay
