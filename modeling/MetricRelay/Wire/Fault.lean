/-!
# Faults of payloads

Why a payload carries no metric. A payload has one fault, the first that
is met reading from left to right.
-/

namespace MetricRelay.Wire

/-- Why a payload is refused. -/
inductive Fault where
  /-- The payload ends before the metric does. -/
  | truncated
  /-- The payload breaks the rules of the notation, holds a number that is
  out of range, or goes on after its end. -/
  | malformed
  /-- The payload is well formed but no metric: a part has the wrong type,
  is missing, stands twice or is out of its range. -/
  | mistyped
  | emptyName
deriving Repr, DecidableEq

namespace Fault

def message : Fault → String
  | truncated => "payload ends too early"
  | malformed => "payload is malformed"
  | mistyped => "payload is no metric"
  | emptyName => "metric name must not be empty"

end Fault

end MetricRelay.Wire
