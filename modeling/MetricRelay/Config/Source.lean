import MetricRelay.Table

/-!
# What settings are read from

Settings are read from values of two notations. A `Source` says how the
few kinds of settings are found in a value of a notation; a `Tree` is
the value of the notation of plain data, and what settings are turned
into to be written.
-/

namespace MetricRelay.Config

/-- A notation whose values hold settings. Every reading fails on a value
of the wrong kind. -/
class Source (ν : Type) where
  text? : ν → Option String
  /-- A text that may be left out. -/
  optionalText? : ν → Option (Option String)
  flag? : ν → Option Bool
  number? : ν → Option Float
  /-- One of several names. -/
  choice? : ν → Option String
  /-- The parts of a section with the given names, those that are there;
  parts with other names do not matter. -/
  parts? : (names : List String) → ν → Option (List (Option ν))
  /-- Values under names of any kind. -/
  entries? : ν → Option (List (String × ν))
  /-- Values in a row. -/
  items? : ν → Option (List ν)

/-- A value of plain data. -/
inductive Tree where
  | null
  | flag (value : Bool)
  | number (value : Float)
  | text (value : String)
  | list (items : List Tree)
  | record (members : List (String × Tree))

namespace Tree

/-- The value of the last member with a name. -/
def lastMember? {ν : Type} (name : String) (members : List (String × ν)) : Option ν :=
  members.foldl (fun found m => if m.1 = name then some m.2 else found) none

/-- The parts of a section that is written as a list of its parts in
order: those behind the end are left out, and there are no others. -/
def inOrder? {ν : Type} : (names : List String) → List ν → Option (List (Option ν))
  | [], [] => some []
  | [], _ :: _ => none
  | _ :: names, [] => (inOrder? names []).map (none :: ·)
  | _ :: names, v :: vs => (inOrder? names vs).map (some v :: ·)

def text? : Tree → Option String
  | text s => some s
  | _ => none

def optionalText? : Tree → Option (Option String)
  | null => some none
  | text s => some (some s)
  | _ => none

def flag? : Tree → Option Bool
  | flag b => some b
  | _ => none

def number? : Tree → Option Float
  | number x => some x
  | _ => none

/-- A name, written as a text or as the only member of a record, with
nothing in it. -/
def choice? : Tree → Option String
  | text s => some s
  | record [(s, null)] => some s
  | _ => none

/-- The parts of a section, written as a record or in order. -/
def parts? (names : List String) : Tree → Option (List (Option Tree))
  | record members => some (names.map fun name => lastMember? name members)
  | list items => inOrder? names items
  | _ => none

def entries? : Tree → Option (List (String × Tree))
  | record members => some members
  | _ => none

def items? : Tree → Option (List Tree)
  | list items => some items
  | _ => none

instance : Source Tree where
  text? := text?
  optionalText? := optionalText?
  flag? := flag?
  number? := number?
  choice? := choice?
  parts? := parts?
  entries? := entries?
  items? := items?

end Tree

end MetricRelay.Config
