/-!
# Log events

An event has a severity, the target that names the part of the program
it comes from, a message and named texts. `withCauses` is the text of a
failure together with its causes.
-/

namespace MetricRelay.Log

/-- How grave an event is. -/
inductive Severity where
  | error
  | warn
  | info
  | debug
  | trace
deriving Repr, DecidableEq

namespace Severity

/-- The severity in upper case letters. -/
def label : Severity → String
  | error => "ERROR"
  | warn => "WARN"
  | info => "INFO"
  | debug => "DEBUG"
  | trace => "TRACE"

/-- The number of severities up to and including this one, the gravest
first. -/
def rank : Severity → Nat
  | error => 1
  | warn => 2
  | info => 3
  | debug => 4
  | trace => 5

end Severity

/-- Something that happened. -/
structure Event where
  severity : Severity
  target : String
  message : String
  /-- Named texts that go with it. -/
  fields : List (String × String)
deriving Repr, DecidableEq

/-- The text of a failure and its causes, the outermost first, each
cause on a line of its own. -/
def withCauses : List String → String
  | [] => ""
  | text :: causes => causes.foldl (fun s cause => s ++ "\n  caused by: " ++ cause) text

end MetricRelay.Log
