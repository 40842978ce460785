import MetricRelay.Yaml.Token.Basic

/-!
# From tokens to nodes

A document is one node, made of scalars, sequences and mappings. Nodes
may have a tag and an anchor, and an alias stands for the node with its
anchor. Where a node is due and none stands, there is an empty scalar.

The functions below follow the grammar, one for each kind of collection.
Each takes a token at least wherever it calls another one, so a number of
calls that exceeds the number of tokens suffices.
-/

namespace MetricRelay.Yaml

/-- What a node may have in front. -/
structure Properties where
  /-- The tag with its handle's meaning. -/
  tag : Option String
  anchor : Option String
deriving Repr, DecidableEq

namespace Properties

def none : Properties := ⟨.none, .none⟩

/-- The tag of a scalar. The tag that only says that there is one does
not count. -/
def scalarTag (p : Properties) : Option String :=
  if p.tag = some "!" then .none else p.tag

end Properties

/-- A node whose aliases name their targets by an `α`. -/
inductive Node (α : Type) where
  /-- The node with an anchor. -/
  | aliasOf (target : α)
  | scalar (tag anchor : Option String) (style : Style) (text : String)
  | sequence (tag anchor : Option String) (items : List (Node α))
  | mapping (tag anchor : Option String) (entries : List (Node α × Node α))

namespace Node

/-- A node whose aliases have the names of anchors. -/
abbrev Named := Node String

/-- The scalar that stands where nothing does. -/
def empty {α : Type} : Node α := scalar none none .plain ""

/-- The meanings of the handles of tags. -/
abbrev Handles := List (String × String)

/-- The handles that every document has. -/
def defaultHandles : Handles := [("!", "!"), ("!!", "tag:yaml.org,2002:")]

/-- A tag with its handle's meaning; the handle must have one. -/
def resolveTag? (handles : Handles) (handle suffix : String) : Option String :=
  if handle = "" then some suffix else (handles.lookup handle).map (· ++ suffix)

/-- Reads a tag and an anchor in either order. -/
def properties? (handles : Handles) : List Token → Option (Properties × List Token)
  | .anchor a :: .tag h s :: ts =>
    (resolveTag? handles h s).map fun t => (⟨some t, some a⟩, ts)
  | .tag h s :: .anchor a :: ts =>
    (resolveTag? handles h s).map fun t => (⟨some t, some a⟩, ts)
  | .anchor a :: ts => some (⟨none, some a⟩, ts)
  | .tag h s :: ts => (resolveTag? handles h s).map fun t => (⟨some t, none⟩, ts)
  | ts => some (.none, ts)

/-- Where a node stands. -/
inductive Context where
  | flow
  | block
  /-- In a mapping block, where the entries of a sequence need not be
  indented. -/
  | member
deriving Repr, DecidableEq

/-- In a mapping block no node stands before this token. -/
def endsMember : List Token → Bool
  | .key :: _ | .value :: _ | .blockEnd :: _ | [] => true
  | _ => false

/-- In a sequence block no node stands before this token. -/
def endsEntry : List Token → Bool
  | .blockEntry :: _ | .blockEnd :: _ | [] => true
  | _ => false

/-- In a sequence that is not indented no node stands before this
token. -/
def endsLooseEntry : List Token → Bool
  | .blockEntry :: _ => true
  | ts => endsMember ts

/-- Between braces no node stands before this token. -/
def endsFlowMember : List Token → Bool
  | .flowEntry :: _ | .flowMappingEnd :: _ | [] => true
  | _ => false

/-- Between square brackets no node stands before this token. -/
def endsFlowItem : List Token → Bool
  | .flowEntry :: _ | .flowSequenceEnd :: _ | [] => true
  | _ => false

/-- A value is marked here. -/
def atValue : List Token → Bool
  | .value :: _ => true
  | _ => false

mutual

def read? (handles : Handles) : (fuel : Nat) → Context → List Token →
    Option (Named × List Token)
  | 0, _, _ => none
  | _ + 1, _, .aliasOf name :: ts => some (aliasOf name, ts)
  | fuel + 1, context, ts => do
    let (p, ts) ← properties? handles ts
    match context, ts with
    | .member, .blockEntry :: _ =>
      let (items, ts) ← readLooseEntries? handles fuel ts
      some (sequence p.tag p.anchor items, ts)
    | _, .scalar style text :: ts => some (scalar p.scalarTag p.anchor style text, ts)
    | _, .flowSequenceStart :: ts =>
      let (items, ts) ← readItems? handles fuel true ts
      some (sequence p.tag p.anchor items, ts)
    | _, .flowMappingStart :: ts =>
      let (entries, ts) ← readFlowMembers? handles fuel true ts
      some (mapping p.tag p.anchor entries, ts)
    | .block, .blockSequenceStart :: ts | .member, .blockSequenceStart :: ts =>
      let (items, ts) ← readEntries? handles fuel ts
      some (sequence p.tag p.anchor items, ts)
    | .block, .blockMappingStart :: ts | .member, .blockMappingStart :: ts =>
      let (entries, ts) ← readMembers? handles fuel ts
      some (mapping p.tag p.anchor entries, ts)
    | _, ts =>
      if p = .none then none else some (scalar p.tag p.anchor .plain "", ts)

/-- Reads a node, or the empty one where `absent`. -/
def readUnless? (handles : Handles) : (fuel : Nat) → (absent : Bool) → Context → List Token →
    Option (Named × List Token)
  | 0, _, _, _ => none
  | fuel + 1, absent, context, ts =>
    if absent then some (empty, ts) else read? handles fuel context ts

/-- Reads the entries of a sequence block. -/
def readEntries? (handles : Handles) : (fuel : Nat) → List Token →
    Option (List Named × List Token)
  | 0, _ => none
  | fuel + 1, .blockEntry :: ts => do
    let (item, ts) ← readUnless? handles fuel (endsEntry ts) .block ts
    let (items, ts) ← readEntries? handles fuel ts
    some (item :: items, ts)
  | _ + 1, .blockEnd :: ts => some ([], ts)
  | _ + 1, _ => none

/-- Reads the entries of a sequence that is not indented. -/
def readLooseEntries? (handles : Handles) : (fuel : Nat) → List Token →
    Option (List Named × List Token)
  | 0, _ => none
  | fuel + 1, .blockEntry :: ts => do
    let (item, ts) ← readUnless? handles fuel (endsLooseEntry ts) .block ts
    let (items, ts) ← readLooseEntries? handles fuel ts
    some (item :: items, ts)
  | _ + 1, ts => some ([], ts)

def readMembers? (handles : Handles) : (fuel : Nat) → List Token →
    Option (List (Named × Named) × List Token)
  | 0, _ => none
  | fuel + 1, .key :: ts => do
    let (key, ts) ← readUnless? handles fuel (endsMember ts) .member ts
    let (value, ts) ← readValue? handles fuel ts
    let (entries, ts) ← readMembers? handles fuel ts
    some ((key, value) :: entries, ts)
  | _ + 1, .blockEnd :: ts => some ([], ts)
  | _ + 1, _ => none

/-- Reads the value of a member of a mapping block. -/
def readValue? (handles : Handles) : (fuel : Nat) → List Token → Option (Named × List Token)
  | 0, _ => none
  | fuel + 1, .value :: ts => readUnless? handles fuel (endsMember ts) .member ts
  | _ + 1, ts => some (empty, ts)

def readItems? (handles : Handles) : (fuel : Nat) → (first : Bool) → List Token →
    Option (List Named × List Token)
  | 0, _, _ => none
  | _ + 1, _, .flowSequenceEnd :: ts => some ([], ts)
  | fuel + 1, false, .flowEntry :: ts => readItem? handles fuel ts
  | _ + 1, false, _ => none
  | fuel + 1, true, ts => readItem? handles fuel ts

/-- Reads an item between square brackets with all that follow. An item
with a key is a mapping of one member. -/
def readItem? (handles : Handles) : (fuel : Nat) → List Token →
    Option (List Named × List Token)
  | 0, _ => none
  | _ + 1, .flowSequenceEnd :: ts => some ([], ts)
  | fuel + 1, .key :: ts => do
    let (entry, ts) ← readPair? handles fuel ts
    let (items, ts) ← readItems? handles fuel false ts
    some (mapping none none [entry] :: items, ts)
  | fuel + 1, ts => do
    let (item, ts) ← read? handles fuel .flow ts
    let (items, ts) ← readItems? handles fuel false ts
    some (item :: items, ts)

/-- Reads the only member of an item. Where its key is missing, the token
that stands there instead is taken for it. -/
def readPair? (handles : Handles) : (fuel : Nat) → List Token →
    Option ((Named × Named) × List Token)
  | 0, _ => none
  | fuel + 1, ts => do
    let missing := atValue ts || endsFlowItem ts
    let (key, ts) ← readUnless? handles fuel missing .flow (if missing then ts.drop 1 else ts)
    match ts with
    | .value :: ts =>
      let (value, ts) ← readUnless? handles fuel (endsFlowItem ts) .flow ts
      some ((key, value), ts)
    | ts => some ((key, empty), ts)

def readFlowMembers? (handles : Handles) : (fuel : Nat) → (first : Bool) → List Token →
    Option (List (Named × Named) × List Token)
  | 0, _, _ => none
  | _ + 1, _, .flowMappingEnd :: ts => some ([], ts)
  | fuel + 1, false, .flowEntry :: ts => readFlowMember? handles fuel ts
  | _ + 1, false, _ => none
  | fuel + 1, true, ts => readFlowMember? handles fuel ts

/-- Reads a member between braces with all that follow. A member without
the mark of a key has no value. -/
def readFlowMember? (handles : Handles) : (fuel : Nat) → List Token →
    Option (List (Named × Named) × List Token)
  | 0, _ => none
  | _ + 1, .flowMappingEnd :: ts => some ([], ts)
  | fuel + 1, .key :: ts => do
    let absent := atValue ts || endsFlowMember ts
    let (key, ts) ← readUnless? handles fuel absent .flow ts
    let (value, ts) ← readFlowValue? handles fuel ts
    let (entries, ts) ← readFlowMembers? handles fuel false ts
    some ((key, value) :: entries, ts)
  | fuel + 1, ts => do
    let (key, ts) ← read? handles fuel .flow ts
    let (entries, ts) ← readFlowMembers? handles fuel false ts
    some ((key, empty) :: entries, ts)

def readFlowValue? (handles : Handles) : (fuel : Nat) → List Token →
    Option (Named × List Token)
  | 0, _ => none
  | fuel + 1, .value :: ts => readUnless? handles fuel (endsFlowMember ts) .flow ts
  | _ + 1, ts => some (empty, ts)

end

/-! ## Documents -/

/-- Reads the directives of a document: at most one version, which must
be 1.1 or 1.2, and no handle twice. `handles` are those declared so
far. -/
def directives? : (versioned : Bool) → (handles : Handles) → List Token →
    Option (Handles × List Token)
  | versioned, handles, .version major minor :: ts =>
    if versioned || major != 1 || (minor != 1 && minor != 2) then none
    else directives? true handles ts
  | versioned, handles, .tagHandle handle meaning :: ts =>
    if (handles.lookup handle).isSome then none
    else directives? versioned (handles ++ [(handle, meaning)]) ts
  | _, handles, ts => some (handles ++ defaultHandles, ts)

/-- No content of a document stands before these tokens. -/
def endsDocument : List Token → Bool
  | .version _ _ :: _ | .tagHandle _ _ :: _ | .documentStart :: _ | .documentEnd :: _ | [] => true
  | _ => false

/-- Nothing but marks of ends follows. -/
def onlyEnds (ts : List Token) : Bool :=
  ts.all (· == .documentEnd)

/-- The node of the only document, or nothing where there is no document
at all. -/
def ofTokens? (tokens : List Token) : Option (Option Named) :=
  let fuel := 4 * tokens.length + 8
  match tokens with
  | [] => some none
  | .version _ _ :: _ | .tagHandle _ _ :: _ | .documentStart :: _ => do
    let (handles, ts) ← directives? false [] tokens
    match ts with
    | .documentStart :: ts =>
      let (n, ts) ← readUnless? handles fuel (endsDocument ts) .block ts
      if onlyEnds ts then some (some n) else none
    | _ => none
  | _ => do
    let (n, ts) ← read? defaultHandles fuel .block tokens
    if onlyEnds ts then some (some n) else none

end Node

end MetricRelay.Yaml
