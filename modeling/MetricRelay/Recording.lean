import MetricRelay.Sink

/-!
# A sink that notes what it is asked

The `Recording` keeps every write in order. It can be set to refuse all
of them, and notes them all the same.
-/

namespace MetricRelay

/-- A sink that notes every write. -/
structure Recording where
  /-- The texts of the failure that every write meets, the outermost
  first; writes succeed if there are none. -/
  refusal : List String
deriving Repr, DecidableEq

namespace Recording

/-- The sink whose state is the writes so far. -/
def sink (k : Recording) : Sink (List Write) (List String) where
  accept noted w :=
    { answer := if k.refusal.isEmpty then .ok () else .error k.refusal
      state := noted ++ [w]
      trail := .none }

end Recording

end MetricRelay
