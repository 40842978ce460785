import MetricRelay.Log.Event
import MetricRelay.Text.Quoted
import MetricRelay.Text.Segments

/-!
# How log lines look

Each format turns an event and the text of its time into lines. The
simplified format is plain text, the pretty one the same with colours,
the last one an object on one line.
-/

namespace MetricRelay.Log

/-- The formats that can be configured. -/
inductive Format where
  /-- Pretty on a terminal, simplified elsewhere. -/
  | auto
  | pretty
  | simplified
  /-- One object per line. -/
  | json
deriving Repr, DecidableEq

namespace Format

instance : Inhabited Format := ⟨auto⟩

def all : List Format := [auto, pretty, simplified, json]

def name : Format → String
  | auto => "auto"
  | pretty => "pretty"
  | simplified => "simplified"
  | json => "json"

def named? (name : String) : Option Format :=
  all.find? fun f => f.name == name

/-- The format that `auto` stands for away from a terminal. -/
def resolved : Format → Format
  | auto => simplified
  | f => f

/-- A text between an escape sequence of the terminal and the one that
ends it. -/
def styled (code : String) (s : String) : String :=
  "\x1b[" ++ code ++ "m" ++ s ++ "\x1b[0m"

def colour : Severity → String
  | .error => "31"
  | .warn => "33"
  | .info => "32"
  | .debug => "34"
  | .trace => "35"

/-- The line of an event in plain text. -/
def simplifiedLine (stamp : String) (e : Event) : String :=
  let fields := e.fields.map fun (name, value) => " " ++ name ++ "=" ++ Text.displayed value
  stamp ++ " " ++ Text.alignRight 5 e.severity.label ++ " " ++ e.target ++ ": "
    ++ Text.tamed e.message ++ String.join fields

/-- The line of an event with colours. -/
def prettyLine (stamp : String) (e : Event) : String :=
  let fields := e.fields.map fun (name, value) =>
    " " ++ styled "3" name ++ styled "2" "=" ++ Text.displayed value
  styled "2" stamp ++ " " ++ styled (colour e.severity) (Text.alignRight 5 e.severity.label)
    ++ " " ++ styled "2" e.target ++ styled "2" ":" ++ " " ++ Text.tamed e.message
    ++ String.join fields

/-- The line of an event as an object. -/
def objectLine (stamp : String) (e : Event) : String :=
  let members :=
    [("timestamp", stamp), ("level", e.severity.label), ("message", e.message)]
      ++ e.fields ++ [("target", e.target)]
  let texts := members.map fun (name, value) =>
    String.ofList (Text.quoted name ++ ':' :: Text.quoted value)
  "\x7b" ++ ",".intercalate texts ++ "\x7d"

/-- The lines of an event at the time `stamp`. -/
def lines (f : Format) (stamp : String) (e : Event) : List String :=
  let text :=
    match f.resolved with
    | .pretty => prettyLine stamp e
    | .json => objectLine stamp e
    | _ => simplifiedLine stamp e
  (Text.cut '\n' text.toList).map String.ofList

end Format

end MetricRelay.Log
