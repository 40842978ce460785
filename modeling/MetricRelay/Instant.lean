/-!
# Instants

Points in time in nanoseconds since the epoch. Payloads carry whole
milliseconds within a fixed range, `Instant.ofMillis?` and
`Instant.millis` lead from and to them.
-/

namespace MetricRelay

/-- A point in time. -/
structure Instant where
  /-- Nanoseconds since the epoch. -/
  nanos : Int
deriving Repr, DecidableEq, Inhabited

namespace Instant

def nanosPerMilli : Int := 1000000

/-- The first whole millisecond that can be observed. -/
def firstMillis : Int := -8334601228800000

/-- The last whole millisecond that can be observed. -/
def lastMillis : Int := 8210266876799999

/-- The instant a number of milliseconds after the epoch. -/
def ofMillis (millis : Int) : Instant :=
  ⟨millis * nanosPerMilli⟩

/-- The instant a number of milliseconds after the epoch, if that can be
observed. -/
def ofMillis? (millis : Int) : Option Instant :=
  if firstMillis ≤ millis ∧ millis ≤ lastMillis then some (ofMillis millis) else none

/-- The last whole millisecond that is not after the instant. -/
def millis (t : Instant) : Int :=
  t.nanos.fdiv nanosPerMilli

def latest (s t : Instant) : Instant :=
  if s.nanos < t.nanos then t else s

def isAfter (s t : Instant) : Bool :=
  t.nanos < s.nanos

/-- The time of an instant is at least `firstMillis` and at most
`lastMillis`. -/
def InRange (t : Instant) : Prop :=
  firstMillis ≤ t.millis ∧ t.millis ≤ lastMillis

@[simp]
theorem millis_ofMillis (n : Int) : (ofMillis n).millis = n := by
  simp only [millis, ofMillis, nanosPerMilli]
  exact Int.mul_fdiv_cancel n (by decide)

end Instant

end MetricRelay
