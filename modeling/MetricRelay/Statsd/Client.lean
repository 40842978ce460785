import MetricRelay.Log.Event
import MetricRelay.Statsd.Measurement
import MetricRelay.Statsd.SampleRate
import MetricRelay.Table

/-!
# Clients for internal measurements

A `Client` has a namespace, tags and a sample rate for everything that is
sent through it. What becomes of a measurement is `Client.send`: it is
sampled away, it fails, or its line is sent.
-/

namespace MetricRelay.Statsd

/-- How measurements are sent. -/
structure Client where
  /-- The namespace of all names, whose trailing dots do not count. -/
  nameSpace : String
  /-- Tags of every measurement, behind its own. -/
  defaultTags : Table String
  /-- The rate that caps the rate of every measurement. -/
  rate : SampleRate
  /-- Why every line is refused, if it is. -/
  refusal : Option String

namespace Client

/-- A client without namespace and tags that sends everything. -/
def bare : Client := ⟨"", .empty, .all, none⟩

/-- The bare client with a sample rate. -/
def sampling (rate : SampleRate) : Client := { bare with rate }

end Client

/-- What is asked to be measured. -/
inductive Reading where
  /-- A measurement as it is. -/
  | plain (m : Measurement)
  /-- A duration in nanoseconds, measured in whole milliseconds. -/
  | elapsed (name : String) (nanos : Nat) (tags : Tags)

/-- The most milliseconds that a timer can have. -/
def longestMillis : Nat := UInt64.size - 1

namespace Reading

def measurement : Reading → Except String Measurement
  | plain m => .ok m
  | elapsed name nanos tags =>
    let millis := nanos / 1000000
    if millis ≤ longestMillis then .ok ⟨.timer, name, .integer millis, tags⟩
    else .error "u64 overflow"

end Reading

/-- What becomes of a reading. -/
inductive Sent where
  /-- It was not among those that are sent. -/
  | sampledAway
  /-- It was dropped with a reason. -/
  | dropped (reason : String)
  /-- Its line was sent. -/
  | line (text : String)
deriving Repr, DecidableEq

namespace Client

/-- The rate of a measurement: its own one, capped by the client's. -/
def effectiveRate (c : Client) (own? : Option SampleRate) : SampleRate :=
  match own? with
  | some own => own.stricter c.rate
  | none => c.rate

/-- Sends a reading with a rate of its own or none. -/
def send (c : Client) (reading : Reading) (own? : Option SampleRate) (draw : Float) : Sent :=
  let rate := c.effectiveRate own?
  if rate.admits draw then
    match reading.measurement, c.refusal with
    | .error reason, _ => .dropped reason
    | .ok _, some reason => .dropped reason
    | .ok m, none =>
      let said := if rate.agrees .all then none else some rate.fraction
      .line (m.line (beginning c.nameSpace) said c.defaultTags.entries)
  else .sampledAway

/-- The number of measurements that wait to be sent at most. -/
def queueCapacity : Nat := 100000

def droppedEvent (reason : String) : Log.Event :=
  ⟨.error, "tally_statsd::client", "dropped internal metric",
    [("error", reason), ("queue_capacity", Number.natural queueCapacity)]⟩

end Client

end MetricRelay.Statsd
