import MetricRelay.Number.Layout

/-!
# Sample rates

The fraction of measurements that is sent. A rate is made from any
number by clamping it to the range from 0 to 1; a value that is no number
stays what it is and admits nothing.
-/

namespace MetricRelay.Statsd

/-- The fraction of measurements that is sent. -/
structure SampleRate where
  fraction : Float
deriving DecidableEq

namespace SampleRate

def all : SampleRate := ⟨1⟩

instance : Inhabited SampleRate := ⟨all⟩

/-- The number moved to the nearer end of the range from 0 to 1 if it is
outside. -/
def ofFloat (x : Float) : SampleRate :=
  if x < 0 then ⟨0⟩ else if 1 < x then ⟨1⟩ else ⟨x⟩

/-- The smaller rate; of a number and a value that is none, the
number. -/
def stricter (r s : SampleRate) : SampleRate :=
  if r.fraction.isNaN then s else if s.fraction < r.fraction then s else r

def agrees (r s : SampleRate) : Bool :=
  r.fraction == s.fraction

/-- A measurement with the given draw, from 0 to below 1, is sent. -/
def admits (r : SampleRate) (draw : Float) : Bool :=
  if 1 ≤ r.fraction then true
  else if r.fraction ≤ 0 then false
  else draw < r.fraction

end SampleRate

end MetricRelay.Statsd
