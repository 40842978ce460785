import MetricRelay.Config.Source
import MetricRelay.Text.Utf8
import MetricRelay.Yaml.Anchors
import MetricRelay.Yaml.Scalar
import MetricRelay.Yaml.Token.Scan

/-!
# Settings in documents

A `View` is a node of a document together with the anchors of the
document. Any scalar is a text; only plain scalars stand for truth values
and numbers, or those that say so by their tag. A section or a list may
also have no value at all.
-/

namespace MetricRelay.Yaml

/-- A node of a document. -/
structure View where
  anchors : Anchors
  node : Node.Numbered

namespace View

/-- What a tag says that names the type `name`. -/
def typeTag (name : String) : String :=
  "tag:yaml.org,2002:" ++ name

/-- The node that is no alias. -/
def target? (v : View) : Option Node.Numbered :=
  match v.node with
  | .aliasOf n => v.anchors.node? n
  | n => some n

def text? (v : View) : Option String :=
  match v.target? with
  | some (.scalar _ _ _ text) => some text
  | _ => none

/-- The text of a scalar that may stand for a value of a type. -/
def typedText? (type : String) (v : View) : Option String :=
  match v.target? with
  | some (.scalar _ _ .plain text) => some text
  | some (.scalar tag _ .literal text) => if tag = some (typeTag type) then some text else none
  | _ => none

/-- The text of a scalar, or nothing of one that stands for nothing. -/
def optionalText? (v : View) : Option (Option String) :=
  match v.target? with
  | some (.scalar none _ .plain text) =>
    if text = "" || isNull text then some none else some (some text)
  | some (.scalar (some tag) _ .plain text) =>
    if tag = typeTag "null" then if isNull text then some none else none
    else some (some text)
  | some (.scalar _ _ _ text) => some (some text)
  | _ => none

/-- The name that a tag of the document's own holds. -/
def ownTag? (tag : Option String) : Option String :=
  match tag.map String.toList with
  | some ('!' :: cs) => some (String.ofList cs)
  | _ => none

/-- A name: a scalar, or a tag in front of nothing. -/
def choice? (v : View) : Option String :=
  match v.target? with
  | some (.scalar tag _ style text) =>
    match ownTag? tag with
    | none => some text
    | some name =>
      if style = .plain && (text = "" || isNull text) then some name else none
  | _ => none

/-- The members of a mapping, or none of nothing. -/
def members? (v : View) : Option (List (Node.Numbered × Node.Numbered)) :=
  match v.target? with
  | some (.mapping _ _ entries) => some entries
  | some (.scalar _ _ .plain "") => some []
  | _ => none

/-- The members of a mapping under the texts of their keys. -/
def entries? (v : View) : Option (List (String × View)) := do
  (← v.members?).mapM fun (key, value) =>
    (text? ⟨v.anchors, key⟩).map fun name => (name, ⟨v.anchors, value⟩)

/-- The value of the only member with a name; there must not be two. -/
def onlyMember? (name : String) (members : List (String × View)) : Option (Option View) :=
  match members.filter (·.1 = name) with
  | [] => some none
  | [m] => some (some m.2)
  | _ => none

/-- The parts of a section. -/
def parts? (names : List String) (v : View) : Option (List (Option View)) := do
  let members ← v.entries?
  names.mapM fun name => onlyMember? name members

/-- The items of a sequence, or none of nothing. -/
def items? (v : View) : Option (List View) :=
  match v.target? with
  | some (.sequence _ _ items) => some (items.map (⟨v.anchors, ·⟩))
  | some (.scalar _ _ .plain "") => some []
  | _ => none

instance : Config.Source View where
  text? := text?
  optionalText? := optionalText?
  flag? v := (v.typedText? "bool").bind Yaml.flag?
  number? v := (v.typedText? "float").bind Yaml.float?
  choice? := choice?
  parts? := parts?
  entries? := entries?
  items? := items?

/-- The only document in a text; an empty one has no members. -/
def ofText? (s : String) : Option View := do
  let cs := s.toList
  if !cs.all isAllowed then none
  else
    let tokens ← tokens? (place cs)
    match ← Node.ofTokens? tokens with
    | none => some ⟨.none, .mapping none none []⟩
    | some n => (n.number? .none).map fun (node, anchors) => ⟨anchors, node⟩

/-- The only document in the bytes of a file. -/
def ofBytes? (bytes : List UInt8) : Option View :=
  (Utf8.decode? bytes).bind ofText?

end View

end MetricRelay.Yaml
