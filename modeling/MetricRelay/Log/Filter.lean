import MetricRelay.Log.Level
import MetricRelay.Number.Numeral
import MetricRelay.Text.Segments

/-!
# Log filters

A filter is a list of directives, each a level for the targets that begin
with a text, or for all. The directive with the longest text decides, of
several with one text the last. Filters are written as directives
between commas; what is no directive is refused on its own and takes no
other with it.
-/

namespace MetricRelay.Log

/-- A level for some targets. -/
structure Directive where
  /-- What the targets begin with. -/
  target : String
  /-- What is logged of them. -/
  level : Level
deriving Repr, DecidableEq

/-- Directives in the order in which they were given. -/
abbrev Filter := List Directive

namespace Filter

/-- The directive that decides about a target. -/
def deciding? (f : Filter) (target : String) : Option Directive :=
  f.foldl
    (fun best? d =>
      if Text.startsWith target d.target then
        match best? with
        | some best => if d.target.length < best.target.length then some best else some d
        | none => some d
      else best?)
    none

/-- Events of a severity from a target are let through. -/
def allows (f : Filter) (target : String) (s : Severity) : Bool :=
  match f.deciding? target with
  | some d => d.level.allows s
  | none => false

/-- The parts of the program whose level is configured. -/
def programTargets : List String :=
  ["tally_bus", "tally_config", "tally_log", "tally_metrics", "tally_statsd"]

/-- The filter for a configured level: all else logs at `info`. -/
def ofLevel (l : Level) : Filter :=
  ⟨"", .info⟩ :: programTargets.map (⟨·, l⟩)

end Filter

/-! ## Reading directives -/

/-- Why a directive is refused. -/
inductive DirectiveFault where
  /-- It begins like no target and no level. -/
  | malformed
  /-- What it gives for a level is none. -/
  | level
deriving Repr, DecidableEq

namespace DirectiveFault

def message : DirectiveFault → String
  | malformed => "invalid filter directive"
  | level =>
    "error parsing level filter: expected one of \"off\", \"error\", \"warn\", \"info\", "
      ++ "\"debug\", \"trace\", or a number 0-5"

end DirectiveFault

namespace Directive

/-- Reads the level of a directive: a name in any case, or a number from
0 to 5. -/
def readLevel? (s : String) : Option Level :=
  match Number.readNatural? s.toList with
  | some n => Level.all[n]?
  | none => Level.named? (Text.lowerAscii s)

/-- A directive may begin with a character. -/
def begins (c : Char) : Bool :=
  c.isAlphanum || c = '-' || c = ':' || c = '_' || c = '[' || 0x7F < c.toNat

/-- Reads `target=level`, a bare level for all targets, or a bare target,
which logs everything, as does a target with nothing for its level.
Blanks before a bare target are part of it; a target with a level has
none before it. -/
def read (s : String) : Except DirectiveFault Directive :=
  let cs := s.toList
  if !(cs.find? fun c => !c.isWhitespace).any begins then .error .malformed
  else
    match cs.span (· != '=') with
    | (_, []) =>
      match readLevel? s with
      | some l => .ok ⟨"", l⟩
      | none => .ok ⟨s, .trace⟩
    | (target, _ :: level) =>
      if cs.head?.any Char.isWhitespace then .error .level
      else if level.isEmpty then .ok ⟨String.ofList target, .trace⟩
      else
        match readLevel? (String.ofList level) with
        | some l => .ok ⟨String.ofList target, l⟩
        | none => .error .level

end Directive

/-! ## Reading filters -/

namespace Filter

/-- The directives of a written filter, as texts. -/
def parts (s : String) : List String :=
  ((Text.cut ',' s.toList).filter (!·.isEmpty)).map String.ofList

/-- Reads a filter. If it has no directive, errors are let through. -/
def read (s : String) : Filter :=
  match (parts s).filterMap fun p => (Directive.read p).toOption with
  | [] => [⟨"", .error⟩]
  | f => f

/-- What is said about the refused directives of a written filter. -/
def refusals (s : String) : List String :=
  (parts s).filterMap fun p =>
    match Directive.read p with
    | .ok _ => none
    | .error fault => some ("ignoring `" ++ p ++ "`: " ++ fault.message)

end Filter

end MetricRelay.Log
