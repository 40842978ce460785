import MetricRelay.Text.Segments

/-!
# Key patterns

Producers publish under names whose first segments identify them. A
`KeyPattern` has a rule for each of the first segments of a name, keep or
discard; the segments that are kept, with all that follow the pattern,
are the key that metrics of different producers share.
-/

namespace MetricRelay

/-- What happens to a segment. -/
inductive SegmentRule where
  | keep
  | discard
deriving Repr, DecidableEq

namespace SegmentRule

/-- The letter of a rule. -/
def token : SegmentRule → String
  | keep => "k"
  | discard => "d"

def ofToken? (token : String) : Option SegmentRule :=
  if token = "k" then some keep
  else if token = "d" then some discard
  else none

end SegmentRule

/-- Rules for the first segments of a name. -/
structure KeyPattern where
  /-- One rule per segment, from the first one on. -/
  rules : List SegmentRule
deriving Repr, DecidableEq

/-- A token that is no rule. -/
structure InvalidKeyPattern where
  /-- The first such token. -/
  token : String
deriving Repr, DecidableEq

namespace InvalidKeyPattern

def message (e : InvalidKeyPattern) : String :=
  "invalid key pattern token `" ++ e.token ++ "`, expected `k` or `d`"

end InvalidKeyPattern

namespace KeyPattern

/-- The pattern that discards three segments. -/
def default : KeyPattern := ⟨[.discard, .discard, .discard]⟩

instance : Inhabited KeyPattern := ⟨default⟩

def defaultText : String := "d.d.d"

/-- The rules with the given letters, or the first token that is none. -/
def rulesOf : List String → Except InvalidKeyPattern (List SegmentRule)
  | [] => .ok []
  | token :: tokens =>
    match SegmentRule.ofToken? token with
    | none => .error ⟨token⟩
    | some rule => (rulesOf tokens).map (rule :: ·)

/-- Reads a pattern: letters separated by dots. -/
def parse (s : String) : Except InvalidKeyPattern KeyPattern :=
  (rulesOf (Text.segments s)).map KeyPattern.mk

def display (p : KeyPattern) : String :=
  Text.dotted (p.rules.map SegmentRule.token)

/-- The segments that the rules keep, with all segments past the rules;
there must be a segment for every rule. -/
def keep? : List SegmentRule → List String → Option (List String)
  | [], segments => some segments
  | _ :: _, [] => none
  | .keep :: rules, segment :: segments => (keep? rules segments).map (segment :: ·)
  | .discard :: rules, _ :: segments => keep? rules segments

/-- The key of a name. There is none for a name with fewer segments than
rules, or when no text remains. -/
def keyFor? (p : KeyPattern) (name : String) : Option String :=
  match keep? p.rules (Text.segments name) with
  | none => none
  | some segments =>
    let key := Text.dotted segments
    if key = "" then none else some key

end KeyPattern

end MetricRelay
