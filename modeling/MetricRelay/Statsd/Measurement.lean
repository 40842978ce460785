import MetricRelay.Number.Layout
import MetricRelay.Text.Affix

/-!
# Measurement lines

A `Measurement` is one named value with tags. Its line is
`name:value|kind`, then `|@rate` if it stands for more measurements than
were sent, then `|#tag:value,…` if it has tags.
-/

namespace MetricRelay.Statsd

/-- What a measurement says about its name. -/
inductive Kind where
  /-- A change of a count. -/
  | count
  /-- A reading of the moment. -/
  | gauge
  /-- One value of many whose distribution matters. -/
  | distribution
  /-- A duration in milliseconds. -/
  | timer
deriving Repr, DecidableEq

namespace Kind

/-- The mark of the kind in a line. -/
def mark : Kind → String
  | count => "c"
  | gauge => "g"
  | distribution => "d"
  | timer => "ms"

end Kind

inductive Value where
  | integer (n : Int)
  | real (x : Float)
deriving DecidableEq

namespace Value

def text : Value → String
  | integer n => Number.integer n
  | real x => Number.Layout.display.write x

end Value

/-- Tags in the order in which they are written. -/
abbrev Tags := List (String × String)

/-- A named value with tags. -/
structure Measurement where
  kind : Kind
  /-- The name without the sender's namespace. -/
  name : String
  value : Value
  tags : Tags
deriving DecidableEq

/-- The tags at the end of a line. -/
def tagText : Tags → String
  | [] => ""
  | tags => "|#" ++ ",".intercalate (tags.map fun (tag, value) => tag ++ ":" ++ value)

/-- What stands before the names of a namespace: the namespace without
its trailing dots and one dot, or nothing for the empty namespace. -/
def beginning (nameSpace : String) : String :=
  if nameSpace = "" then "" else Text.trimTrailing '.' nameSpace ++ "."

namespace Measurement

/-- The line of a measurement, its name behind `beginning`, with the rate
it was sent at if that is to be said, and more tags behind its own. -/
def line (m : Measurement) (beginning : String) (rate? : Option Float) (more : Tags) : String :=
  let rate := (rate?.map fun r => "|@" ++ Number.Layout.display.write r).getD ""
  beginning ++ m.name ++ ":" ++ m.value.text ++ "|" ++ m.kind.mark ++ rate
    ++ tagText (m.tags ++ more)

end Measurement

end MetricRelay.Statsd
