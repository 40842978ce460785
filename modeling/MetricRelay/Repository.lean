import MetricRelay.Sink
import MetricRelay.Table

/-!
# The repository

The store of the latest value per metric name. A record replaces what is
stored, an increment adds to it or is stored as it is, a reset removes
it. The repository is a sink that never refuses.
-/

namespace MetricRelay

/-- The latest metric of each name. -/
structure Repository where
  /-- The metrics under their names. -/
  stored : Table Metric

namespace Repository

def empty : Repository := ⟨Table.empty⟩

def record (r : Repository) (m : Metric) : Repository :=
  ⟨r.stored.insert m.name m⟩

/-- `m` changed by `d`, as of the time of the change. -/
def changed (m : Metric) (d : Delta) : Metric :=
  { m with value := m.value + d.value, observed := d.observed }

/-- Adds a change to what is stored, or stores it. -/
def increment (r : Repository) (d : Delta) : Repository :=
  match r.stored.get? d.name with
  | some m => ⟨r.stored.insert d.name (changed m d)⟩
  | none => ⟨r.stored.insert d.name d.change⟩

/-- Removes what is stored under a name. -/
def reset (r : Repository) (name : String) : Repository :=
  ⟨r.stored.erase name⟩

def write (r : Repository) : Write → Repository
  | .record m => r.record m
  | .increment d => r.increment d
  | .reset name _ => r.reset name

/-! ## Reading -/

def find? (r : Repository) (name : String) : Option Metric :=
  r.stored.get? name

/-- All metrics in the order of their names. -/
def all (r : Repository) : List Metric :=
  r.stored.values

def names (r : Repository) : List String :=
  r.stored.names

def count (r : Repository) : Nat :=
  r.stored.size

/-! ## The repository as a sink -/

def opOf : Write → StoreOp
  | .record _ => .record
  | .increment _ => .increment
  | .reset _ _ => .reset

/-- Takes every write and counts it. -/
def sink {ε : Type} : Sink Repository ε where
  accept r w := ⟨.ok (), r.write w, .measure (.stored (opOf w))⟩

end Repository

end MetricRelay
