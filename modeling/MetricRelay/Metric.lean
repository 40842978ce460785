import MetricRelay.Instant
import MetricRelay.Number.Layout
import MetricRelay.Text.Affix

/-!
# Metrics

A `Metric` is a named reading at an instant, a `Delta` a signed change
with the same parts. Names are hierarchical, their segments separated by
dots, and the first segment may name a family. `Metric.make?` is the
only way in for names from outside, and it refuses the empty one.
-/

namespace MetricRelay

/-- A named numeric observation. -/
structure Metric where
  name : String
  value : Float
  observed : Instant
deriving DecidableEq, Inhabited

/-- A signed change of a metric since an earlier observation. -/
structure Delta where
  /-- The change as a metric with the increment as its value. -/
  change : Metric
deriving DecidableEq, Inhabited

/-! ## Families -/

/-- The kinds of metrics that names tell apart. -/
inductive Family where
  /-- Counts that only grow until they are reset. -/
  | counter
  /-- Readings of the moment. -/
  | gauge
  /-- Durations. -/
  | timer
deriving Repr, DecidableEq

namespace Family

/-- The segment that names a family. -/
def segment : Family → String
  | counter => "counter"
  | gauge => "gauge"
  | timer => "timer"

def named? (segment : String) : Option Family :=
  if segment = "counter" then some counter
  else if segment = "gauge" then some gauge
  else if segment = "timer" then some timer
  else none

/-- The characters before the first dot, if there is one. -/
def beforeDot? : List Char → Option (List Char)
  | [] => none
  | c :: cs => if c = '.' then some [] else (beforeDot? cs).map (c :: ·)

/-- The family of a metric name: that of the text before its first
dot. -/
def of? (name : String) : Option Family :=
  (beforeDot? name.toList).bind fun cs => named? (String.ofList cs)

end Family

/-! ## Metrics -/

namespace Metric

/-- What the names of counters begin with. -/
def counterBeginning : String := "counter."

def emptyNameMessage : String := "metric name must not be empty"

/-- A metric observed at `observed`, unless the name is empty. -/
def make? (name : String) (value : Float) (observed : Instant) : Option Metric :=
  if name = "" then none else some { name, value, observed }

def namesCounter (name : String) : Bool :=
  Text.startsWith name counterBeginning

def isCounter (m : Metric) : Bool :=
  namesCounter m.name

/-- The zero that resets the counter `name`. There is one for every name
that holds `counter.`, at its beginning or behind a producer's
namespace. -/
def counterReset? (name : String) (observed : Instant) : Option Metric :=
  if Text.holds name counterBeginning then some { name, value := 0, observed } else none

/-- The metric under its name with `namespaceText` put before it as it
is. -/
def within (namespaceText : String) (m : Metric) : Metric :=
  { m with name := namespaceText ++ m.name }

/-- Metrics agree if their names and instants are equal and their values
are equal as numbers: both zeros are, a value that is no number is not
equal to itself. -/
def agrees (m n : Metric) : Bool :=
  m.name == n.name && m.value == n.value && m.observed == n.observed

/-- The metric as log texts show it. -/
def display (m : Metric) : String :=
  m.name ++ "=" ++ Number.Layout.display.write m.value

end Metric

namespace Delta

/-- A delta observed at `observed`, unless the name is empty. -/
def make? (name : String) (value : Float) (observed : Instant) : Option Delta :=
  (Metric.make? name value observed).map Delta.mk

def name (d : Delta) : String := d.change.name

def value (d : Delta) : Float := d.change.value

def observed (d : Delta) : Instant := d.change.observed

def display (d : Delta) : String :=
  d.name ++ Number.Layout.display.writeSigned d.value

end Delta

end MetricRelay
