import MetricRelay.Log.Event
import MetricRelay.Text.Affix

/-!
# Log levels

A level lets events of some severities through. Configurations name it
in lower case; where a level is typed in, case does not matter and
`warning` is understood too.
-/

namespace MetricRelay.Log

/-- How much is logged. -/
inductive Level where
  | off
  | error
  | warn
  | info
  | debug
  | trace
deriving Repr, DecidableEq

namespace Level

instance : Inhabited Level := ⟨info⟩

/-- All levels, the quietest first. -/
def all : List Level := [off, error, warn, info, debug, trace]

def name : Level → String
  | off => "off"
  | error => "error"
  | warn => "warn"
  | info => "info"
  | debug => "debug"
  | trace => "trace"

def named? (name : String) : Option Level :=
  all.find? fun l => l.name == name

/-- Reads a level that was typed in. -/
def parse? (s : String) : Option Level :=
  let s := Text.lowerAscii s
  if s = "warning" then some warn else named? s

def parseMessage : String := "invalid log level"

/-- The number of severities that the level lets through. -/
def rank : Level → Nat
  | off => 0
  | error => 1
  | warn => 2
  | info => 3
  | debug => 4
  | trace => 5

def allows (l : Level) (s : Severity) : Bool :=
  s.rank ≤ l.rank

end Level

end MetricRelay.Log
