/-!
# Tokens

The tokens of a document. Blocks have no brackets in the text; their
tokens come from the indentation.
-/

namespace MetricRelay.Yaml

/-- How a scalar was written. -/
inductive Style where
  | plain
  | singleQuoted
  | doubleQuoted
  | literal
  | folded
deriving Repr, DecidableEq

inductive Token where
  /-- The version that a document is written in. -/
  | version (major minor : Nat)
  /-- A short form of tags. -/
  | tagHandle (handle meaning : String)
  | documentStart
  | documentEnd
  | blockSequenceStart
  | blockMappingStart
  | blockEnd
  | flowSequenceStart
  | flowSequenceEnd
  | flowMappingStart
  | flowMappingEnd
  | blockEntry
  | flowEntry
  | key
  | value
  | aliasOf (name : String)
  | anchor (name : String)
  | tag (handle suffix : String)
  | scalar (style : Style) (text : String)
deriving Repr, DecidableEq

end MetricRelay.Yaml
