import MetricRelay.Health
import MetricRelay.Log.Event

/-!
# What a step leaves behind

Besides its answer a step leaves internal measurements and log events,
each in the order in which they came about. Trails of steps are appended.
-/

namespace MetricRelay

/-- Measurements and log events of a step. -/
structure Trail where
  measured : List Health
  logged : List Log.Event
deriving Repr, DecidableEq

namespace Trail

def none : Trail := ⟨[], []⟩

def measure (h : Health) : Trail := ⟨[h], []⟩

def log (e : Log.Event) : Trail := ⟨[], [e]⟩

instance : Append Trail :=
  ⟨fun s t => ⟨s.measured ++ t.measured, s.logged ++ t.logged⟩⟩

@[simp]
theorem measured_append (s t : Trail) : (s ++ t).measured = s.measured ++ t.measured := rfl

@[simp]
theorem logged_append (s t : Trail) : (s ++ t).logged = s.logged ++ t.logged := rfl

@[simp]
theorem none_append (t : Trail) : none ++ t = t := rfl

@[simp]
theorem append_none (t : Trail) : t ++ none = t := by
  cases t
  show (⟨_, _⟩ : Trail) = _
  simp [none]

theorem append_assoc (s t u : Trail) : s ++ t ++ u = s ++ (t ++ u) := by
  show (⟨_, _⟩ : Trail) = ⟨_, _⟩
  simp [List.append_assoc]

end Trail

end MetricRelay
