import MetricRelay.Agent
import MetricRelay.Broker
import MetricRelay.Flow
import MetricRelay.Recording
import MetricRelay.Repository
import MetricRelay.Tracker

/-!
# Sinks put together

An `Assembly` is a sink of any kind, with trackers before it, together
with the state of its parts. Its brokers and flows publish to a bus that
they share, so a write leads from an assembly and a bus to an assembly
and a bus.
-/

namespace MetricRelay

/-- Why an assembly refused a write. -/
inductive WriteError where
  /-- A recording sink was set to refuse. -/
  | rejected (texts : List String)
  /-- The statsd agent was not reached. -/
  | agent (fault : AgentFault)
  /-- The metric was not published. -/
  | publish (error : PublishError)
deriving Repr, DecidableEq

namespace WriteError

def texts : WriteError → List String
  | rejected texts => texts
  | agent fault => fault.texts
  | publish error => error.texts

end WriteError

/-- A sink of any kind with the state of its parts. -/
inductive Assembly where
  /-- A sink that notes writes, and the writes so far. -/
  | recording (sink : Recording) (noted : List Write)
  | repository (content : Repository)
  /-- A statsd agent, and what was sent to it. -/
  | agent (agent : Agent) (sent : List Statsd.Measurement)
  /-- A tracker before another sink. -/
  | tracker (tracker : Tracker) (down : Assembly)
  | broker (broker : Broker)
  /-- The producing side of a flow. -/
  | flow (flow : Flow)

namespace Assembly

def accept : Assembly → Bus → Write → Reply (Assembly × Bus) WriteError Unit
  | recording k noted, bus, w =>
    ((k.sink.accept noted w).mapState fun noted => (recording k noted, bus)).mapError .rejected
  | repository content, bus, w =>
    (Repository.sink.accept content w).mapState fun content => (repository content, bus)
  | agent a sent, bus, w =>
    ((a.sink.accept sent w).mapState fun sent => (agent a sent, bus)).mapError .agent
  | tracker t down, bus, w =>
    (t.relay (down, bus) (down.accept bus) w).mapState fun (t, down, bus) =>
      (tracker t down, bus)
  | broker b, bus, w =>
    ((b.sink.accept bus w).mapState fun bus => (broker b, bus)).mapError .publish
  | flow f, bus, w =>
    ((f.sink.accept bus w).mapState fun bus => (flow f, bus)).mapError .publish

def sink : Sink (Assembly × Bus) WriteError where
  accept s w := s.1.accept s.2 w

/-- The sink that writes end in, behind all trackers. -/
def innermost : Assembly → Assembly
  | tracker _ down => down.innermost
  | a => a

end Assembly

end MetricRelay
