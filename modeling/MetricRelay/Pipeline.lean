import MetricRelay.Assembly
import MetricRelay.Consumer

/-!
# Producers, a bus and a consumer

A pipeline has producers that share a bus and one consumer that fills a
repository. Messages stay on the bus until they are delivered, all at
once and in the order in which they were published.
-/

namespace MetricRelay

/-- The parts of a pipeline that change. -/
structure Pipeline where
  /-- The producers with their state. -/
  producers : List Assembly
  /-- The messages under way. -/
  bus : Bus
  /-- What the consumer has stored. -/
  content : Repository

namespace Pipeline

def start (producers : List Assembly) : Pipeline :=
  ⟨producers, .empty, .empty⟩

/-- A write to the producer with a number, if there is one. -/
def write? (p : Pipeline) (producer : Nat) (w : Write) :
    Option (Reply Pipeline WriteError Unit) :=
  p.producers[producer]?.map fun a =>
    (a.accept p.bus w).mapState fun (a, bus) =>
      { p with producers := p.producers.set producer a, bus }

/-- Puts a message on the bus. -/
def publish (p : Pipeline) (e : Envelope) : Except String Pipeline :=
  (p.bus.publish e).map fun bus => { p with bus }

/-- A message with the consumer's answer to it. -/
abbrev Delivery := Envelope × Except (ReceiveError WriteError) Unit

/-- Hands messages to a consumer, each at an instant of its own, in
order. -/
def deliverAll (consumer : Consumer) :
    List (Envelope × Instant) → Repository → List Delivery × Repository × Trail
  | [], content => ([], content, .none)
  | (e, now) :: rest, content =>
    let r := consumer.onMessage Repository.sink now content e.payload e.headers
    let (deliveries, content, trail) := deliverAll consumer rest r.state
    ((e, r.answer) :: deliveries, content, r.trail ++ trail)

/-- Drains the bus into the consumer; `clock` gives the instant at which
each message arrives. -/
def deliver (p : Pipeline) (consumer : Consumer) (clock : Nat → Instant) :
    List Delivery × Pipeline × Trail :=
  let (envelopes, bus) := p.bus.drain
  let arrivals := envelopes.zipIdx.map fun (e, i) => (e, clock i)
  let (deliveries, content, trail) := deliverAll consumer arrivals p.content
  (deliveries, { p with bus, content }, trail)

end Pipeline

end MetricRelay
