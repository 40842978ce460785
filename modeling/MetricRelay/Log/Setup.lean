import MetricRelay.Log.Filter
import MetricRelay.Log.Format

/-!
# Setting up the log

The first configuration decides for good how and what is logged; a later
one can only turn backtraces on. A filter from the environment takes the
place of the configured level. Failures are reported through the log, or
on standard error when the log does not take errors.
-/

namespace MetricRelay.Log

/-- The `logging` section of a configuration. -/
structure Settings where
  /-- What the parts of the program log. -/
  level : Level
  format : Format
  /-- Backtraces are turned on at the start. -/
  enableBacktraces : Bool
deriving Repr, DecidableEq

namespace Settings

def default : Settings := ⟨.info, .auto, false⟩

end Settings

/-- A log that was set up. -/
structure Installed where
  filter : Filter
  format : Format
deriving Repr, DecidableEq

/-- The state of the program's log. -/
structure Logger where
  /-- The log, once it is set up. -/
  installed : Option Installed
  /-- What the program's backtraces are set to. -/
  backtrace : String
  /-- The lines on standard error about directives that were refused. -/
  complaints : List String
deriving Repr, DecidableEq

namespace Logger

/-- No log is set up. -/
def start : Logger := ⟨none, "", []⟩

/-- Sets the log up, unless it is; `environment` is the filter given
there. What it holds that is no directive is complained about each
time. -/
def setUp (l : Logger) (environment : Option String) (s : Settings) : Logger :=
  { installed :=
      l.installed.or <| some
        { filter := (environment.map Filter.read).getD (Filter.ofLevel s.level)
          format := s.format }
    backtrace := if s.enableBacktraces then "full" else l.backtrace
    complaints := l.complaints ++ (environment.map Filter.refusals).getD [] }

def takes (l : Logger) (target : String) (severity : Severity) : Bool :=
  match l.installed with
  | some i => i.filter.allows target severity
  | none => false

/-- The lines that an event at the time `stamp` is logged with. -/
def lines (l : Logger) (stamp : String) (e : Event) : List String :=
  match l.installed with
  | some i => if i.filter.allows e.target e.severity then i.format.lines stamp e else []
  | none => []

end Logger

/-! ## Reporting failures -/

/-- The part of the program that reports failures. -/
def reportTarget : String := "tally_log::utils"

/-- The event that a failure with its causes is reported as. -/
def reportEvent (texts : List String) : Event :=
  ⟨.error, reportTarget, withCauses texts, []⟩

/-- What is written on standard error when the log takes no errors. -/
def reportText (texts : List String) : String :=
  "error: " ++ withCauses texts ++ "\n"

/-- Reports a failure: the lines that are logged at the time `stamp`, and
what is written on standard error instead if the log does not take
them. -/
def Logger.report (l : Logger) (stamp : String) (texts : List String) : List String × String :=
  if l.takes reportTarget .error then (l.lines stamp (reportEvent texts), "")
  else ([], reportText texts)

end MetricRelay.Log
