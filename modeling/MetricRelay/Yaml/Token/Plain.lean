import MetricRelay.Yaml.Token.Folding

/-!
# Plain scalars

A plain scalar ends before a colon with a gap behind it, before a comment,
before a mark between documents, within brackets before a bracket or a
comma, and outside of brackets before a line that is indented less.
-/

namespace MetricRelay.Yaml

/-- A plain scalar that was read. -/
structure PlainText where
  text : List Char
  /-- The scalar was left behind a line end. -/
  broken : Bool
  /-- What follows. -/
  rest : List Cell

/-- A character that ends a plain scalar within brackets. -/
def isFlowEnd (c : Char) : Bool :=
  c = ',' || c = '[' || c = ']' || c = '\x7b' || c = '\x7d'

/-- Behind a colon within brackets these characters are refused. -/
def isRefusedBehindColon (c : Char) : Bool :=
  isFlowEnd c || c = '?'

/-- Behind a gap the scalar does not go on at these cells. -/
def endsBehindGap (inFlow : Bool) (indent : Int) : List Cell → Bool
  | [] => true
  | c :: cs =>
    (!inFlow && c.column < indent) || Cell.atDocumentMarker (c :: cs) || c.char = '#'

/-- Reads a plain scalar whose lines are indented by `indent` at
least. -/
def readPlain? (inFlow : Bool) (indent : Int) : (text : List Char) → Option Gap → List Cell →
    Option PlainText
  | text, gap, [] => some ⟨text.reverse, (gap.getD .none).broken, []⟩
  | text, gap, c :: cs =>
    let g := gap.getD .none
    if isBlank c.char || isBreak c.char then
      if g.broken && c.char = '\t' && c.column < indent then none
      else readPlain? inFlow indent text (some (g.add c.char)) cs
    else if gap.isSome && endsBehindGap inFlow indent (c :: cs) then
      some ⟨text.reverse, g.broken, c :: cs⟩
    else if inFlow && c.char = ':' && (Cell.head? cs).any isRefusedBehindColon then none
    else if (c.char = ':' && Cell.atGap cs) || (inFlow && isFlowEnd c.char) then
      some ⟨text.reverse, g.broken, c :: cs⟩
    else readPlain? inFlow indent (c.char :: (g.text ++ text)) none cs

end MetricRelay.Yaml
