import MetricRelay.Sink

/-!
# The local statsd agent as a sink

Increments are sent as counts of whole numbers and readings as gauges,
one line each. Statsd has no reset.
-/

namespace MetricRelay

/-- A connection to a statsd agent. -/
structure Agent where
  /-- The namespace of all names, whose trailing dots do not count. -/
  nameSpace : String
  /-- The fault that every line meets, if the connection is broken. -/
  fault : Option String
deriving Repr, DecidableEq

/-- A line that did not reach the agent. -/
structure AgentFault where
  reason : String
deriving Repr, DecidableEq

namespace AgentFault

/-- The text of the failure and its causes: the client reports what the
connection reported. -/
def texts (e : AgentFault) : List String :=
  ["failed to send metric to statsd agent", e.reason, e.reason]

end AgentFault

namespace Agent

def resetIgnored (name : String) : Log.Event :=
  ⟨.trace, "tally_metrics::agent", "ignoring reset, not supported by statsd",
    [("metric", name)]⟩

def gauge (m : Metric) : Statsd.Measurement :=
  ⟨.gauge, m.name, .real m.value, []⟩

def count (d : Delta) : Statsd.Measurement :=
  ⟨.count, d.name, .integer (Number.truncate d.value).toInt, []⟩

/-- Sends a measurement; what was sent is kept. -/
def send (a : Agent) (sent : List Statsd.Measurement) (m : Statsd.Measurement) :
    Reply (List Statsd.Measurement) AgentFault Unit :=
  match a.fault with
  | some reason => ⟨.error ⟨reason⟩, sent, .none⟩
  | none => .ok () (sent ++ [m])

/-- The agent as a sink whose state is what was sent. -/
def sink (a : Agent) : Sink (List Statsd.Measurement) AgentFault where
  accept sent w :=
    match w with
    | .record m => a.send sent (gauge m)
    | .increment d => a.send sent (count d)
    | .reset name _ => ⟨.ok (), sent, .log (resetIgnored name)⟩

def line (a : Agent) (m : Statsd.Measurement) : String :=
  m.line (Statsd.beginning a.nameSpace) none []

end Agent

end MetricRelay
