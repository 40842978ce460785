import MetricRelay.Yaml.Token.Block
import MetricRelay.Yaml.Token.Plain
import MetricRelay.Yaml.Token.Tag

/-!
# From characters to tokens

A `Scanner` reads tokens from cells. Blocks begin where a line is
indented more than the block around it and end where one is indented
less. A key needs no mark of its own: what a colon follows in its line,
not too far behind its beginning, turns out to be a key, and its token is
put before it then.
-/

namespace MetricRelay.Yaml

/-- What may turn out to be a key. -/
structure KeyCandidate where
  /-- A key must stand here. -/
  required : Bool
  /-- The number of tokens before it. -/
  position : Nat
  /-- Where it begins. -/
  start : Cell

/-- The greatest number of characters from the beginning of a key to the
colon behind it. -/
def longestKey : Nat := 1024

/-- Characters that are read up to some place, as tokens. -/
structure Scanner where
  /-- What is not read. -/
  rest : List Cell
  tokens : Array Token
  /-- The indentation of the current block; -1 outside of blocks. -/
  indent : Int
  /-- The indentations of the blocks around it, the innermost first. -/
  around : List Int
  /-- A key may stand here. -/
  keyAllowed : Bool
  /-- What may turn out to be a key in the current brackets. -/
  candidate : Option KeyCandidate
  /-- The same for the brackets around them, the innermost first; there
  are as many as brackets are open. -/
  outer : List (Option KeyCandidate)

namespace Scanner

def start (cells : List Cell) : Scanner :=
  ⟨cells, #[], -1, [], true, none, []⟩

/-- Brackets are open. -/
def inFlow (s : Scanner) : Bool :=
  !s.outer.isEmpty

def push (s : Scanner) (t : Token) : Scanner :=
  { s with tokens := s.tokens.push t }

/-! ## Blocks -/

/-- The tokens that end the blocks indented by more than `column`, with
the indentations that are left. -/
def endBlocks (column : Int) : (indent : Int) → (around : List Int) → (ended : Nat) →
    Int × List Int × Nat
  | indent, [], ended => (indent, [], ended)
  | indent, i :: is, ended =>
    if column < indent then endBlocks column i is (ended + 1) else (indent, i :: is, ended)

/-- Ends the blocks that are indented by more than `column`. -/
def unroll (s : Scanner) (column : Int) : Scanner :=
  if s.inFlow then s
  else
    let (indent, around, ended) := endBlocks column s.indent s.around 0
    { s with indent, around, tokens := s.tokens ++ (List.replicate ended Token.blockEnd) }

/-- Begins a block at `column`, its token at a place among the tokens,
unless the current block is indented as much. -/
def roll (s : Scanner) (column position : Nat) (t : Token) : Scanner :=
  if s.inFlow then s
  else if s.indent < column then
    { s with
      indent := column, around := s.indent :: s.around
      tokens := s.tokens.insertIdxIfInBounds position t }
  else s

/-! ## Keys -/

/-- Gives up the candidate of the current brackets. -/
def dropCandidate? (s : Scanner) : Option Scanner :=
  match s.candidate with
  | some k => if k.required then none else some { s with candidate := none }
  | none => some s

/-- What is read next may turn out to be a key. -/
def saveCandidate? (s : Scanner) (c : Cell) : Option Scanner :=
  if s.keyAllowed then do
    let s ← s.dropCandidate?
    let required := !s.inFlow && s.indent = c.column
    return { s with candidate := some ⟨required, s.tokens.size, c⟩ }
  else some s

/-- The candidate is too far behind for a colon at this cell. -/
def isStale (k : KeyCandidate) (c : Cell) : Bool :=
  k.start.line < c.line || k.start.index + longestKey < c.index

/-- A candidate, unless it is too far behind; one that had to be a key
must not be. -/
def refresh? (c : Cell) (candidate : Option KeyCandidate) : Option (Option KeyCandidate) :=
  match candidate with
  | none => some none
  | some k => if isStale k c then if k.required then none else some none else some (some k)

/-- Gives up the candidates that are too far behind. -/
def dropStale? (s : Scanner) (c : Cell) : Option Scanner := do
  let candidate ← refresh? c s.candidate
  let outer ← s.outer.mapM (refresh? c)
  return { s with candidate, outer }

/-! ## Tokens -/

/-- The cells from the next token on, and whether a key may stand
there. `comment` says that a comment has begun. -/
def skipGap (inFlow : Bool) : (keyAllowed comment : Bool) → List Cell → Bool × List Cell
  | keyAllowed, _, [] => (keyAllowed, [])
  | keyAllowed, comment, c :: cs =>
    if isBreak c.char then skipGap inFlow (keyAllowed || !inFlow) false cs
    else if comment then skipGap inFlow keyAllowed true cs
    else if c.char = ' ' || (c.char = '\t' && (inFlow || !keyAllowed))
        || (c.char = byteOrderMark && c.index = 0) then
      skipGap inFlow keyAllowed false cs
    else if c.char = '#' then skipGap inFlow keyAllowed true cs
    else (keyAllowed, c :: cs)

/-- A token at the end of all blocks, behind which no key may stand. -/
def topLevel? (s : Scanner) : Option Scanner := do
  let s ← (s.unroll (-1)).dropCandidate?
  return { s with keyAllowed := false }

def documentMarker? (s : Scanner) (t : Token) : Option Scanner := do
  let s ← s.topLevel?
  return { s.push t with rest := s.rest.drop 3 }

def directive? (s : Scanner) (cs : List Cell) : Option Scanner := do
  let s ← s.topLevel?
  let (t, rest) ← readDirective? cs
  return { s.push t with rest }

def openFlow? (s : Scanner) (c : Cell) (rest : List Cell) (t : Token) : Option Scanner := do
  let s ← s.saveCandidate? c
  return { s.push t with
    rest, keyAllowed := true, candidate := none, outer := s.candidate :: s.outer }

def closeFlow? (s : Scanner) (rest : List Cell) (t : Token) : Option Scanner := do
  let s ← s.dropCandidate?
  let s := { s.push t with rest, keyAllowed := false }
  match s.outer with
  | candidate :: outer => return { s with candidate, outer }
  | [] => return s

def flowEntry? (s : Scanner) (rest : List Cell) : Option Scanner := do
  let s ← s.dropCandidate?
  return { s.push .flowEntry with rest, keyAllowed := true }

/-- Begins a block for an entry or a key with a mark of its own. -/
def openBlock? (s : Scanner) (c : Cell) (t : Token) : Option Scanner :=
  if s.inFlow then some s
  else if s.keyAllowed then some (s.roll c.column s.tokens.size t)
  else none

def blockEntry? (s : Scanner) (c : Cell) (rest : List Cell) : Option Scanner := do
  let s ← s.openBlock? c .blockSequenceStart
  let s ← s.dropCandidate?
  return { s.push .blockEntry with rest, keyAllowed := true }

def key? (s : Scanner) (c : Cell) (rest : List Cell) : Option Scanner := do
  let s ← s.openBlock? c .blockMappingStart
  let s ← s.dropCandidate?
  return { s.push .key with rest, keyAllowed := !s.inFlow }

/-- The mark of a value. What was a candidate is a key then. -/
def value? (s : Scanner) (c : Cell) (rest : List Cell) : Option Scanner :=
  match s.candidate with
  | some k =>
    let s := { s with tokens := s.tokens.insertIdxIfInBounds k.position .key }
    let s := s.roll k.start.column k.position .blockMappingStart
    some { s.push .value with rest, keyAllowed := false, candidate := none }
  | none => do
    let s ← s.openBlock? c .blockMappingStart
    return { s.push .value with rest, keyAllowed := !s.inFlow }

def named? (s : Scanner) (c : Cell) (cs : List Cell) (token : String → Token) :
    Option Scanner := do
  let s ← s.saveCandidate? c
  let (name, rest) ← readName? cs
  return { s.push (token name) with rest, keyAllowed := false }

def tag? (s : Scanner) (c : Cell) : Option Scanner := do
  let s ← s.saveCandidate? c
  let (t, rest) ← readTag? s.inFlow s.rest
  return { s.push t with rest, keyAllowed := false }

def block? (s : Scanner) (cs : List Cell) (literal : Bool) : Option Scanner := do
  let s ← s.dropCandidate?
  let (text, rest) ← readBlock? literal s.indent cs
  let style := if literal then Style.literal else Style.folded
  return { s.push (.scalar style (String.ofList text)) with rest, keyAllowed := true }

def quoted? (s : Scanner) (c : Cell) (cs : List Cell) (single : Bool) : Option Scanner := do
  let s ← s.saveCandidate? c
  let (text, rest) ←
    if single then readSingle? false [] none cs else readDouble? .plain [] none cs
  let style := if single then Style.singleQuoted else Style.doubleQuoted
  return { s.push (.scalar style (String.ofList text)) with rest, keyAllowed := false }

def plain? (s : Scanner) (c : Cell) : Option Scanner := do
  let s ← s.saveCandidate? c
  let p ← readPlain? s.inFlow (s.indent + 1) [] none s.rest
  return { s.push (.scalar .plain (String.ofList p.text)) with
    rest := p.rest, keyAllowed := p.broken }

/-- A plain scalar may begin with this character and these cells behind
it. -/
def startsPlain (inFlow : Bool) (c : Char) (cs : List Cell) : Bool :=
  !(isBlank c || "-?:,[]\x7b\x7d#&*!|>'\"%@`".toList.contains c)
    || (c = '-' && !(Cell.head? cs).any isBlank)
    || (!inFlow && (c = '?' || c = ':') && !Cell.atGap cs)

/-- Reads the token that begins with the cell `c`. -/
def token? (s : Scanner) (c : Cell) (cs : List Cell) : Option Scanner :=
  let here := c :: cs
  if c.column = 0 && c.char = '%' then s.directive? cs
  else if c.column = 0 && Cell.atMarker '-' here then s.documentMarker? .documentStart
  else if c.column = 0 && Cell.atMarker '.' here then s.documentMarker? .documentEnd
  else if c.char = '[' then s.openFlow? c cs .flowSequenceStart
  else if c.char = '\x7b' then s.openFlow? c cs .flowMappingStart
  else if c.char = ']' then s.closeFlow? cs .flowSequenceEnd
  else if c.char = '\x7d' then s.closeFlow? cs .flowMappingEnd
  else if c.char = ',' then s.flowEntry? cs
  else if c.char = '-' && Cell.atGap cs then s.blockEntry? c cs
  else if c.char = '?' && (s.inFlow || Cell.atGap cs) then s.key? c cs
  else if c.char = ':' && (s.inFlow || Cell.atGap cs) then s.value? c cs
  else if c.char = '*' then s.named? c cs .aliasOf
  else if c.char = '&' then s.named? c cs .anchor
  else if c.char = '!' then s.tag? c
  else if c.char = '|' && !s.inFlow then s.block? cs true
  else if c.char = '>' && !s.inFlow then s.block? cs false
  else if c.char = '\'' then s.quoted? c cs true
  else if c.char = '"' then s.quoted? c cs false
  else if startsPlain s.inFlow c.char cs then s.plain? c
  else none

/-- Reads all tokens; every one takes a cell at least. -/
def run? : (fuel : Nat) → Scanner → Option (Array Token)
  | 0, _ => none
  | fuel + 1, s =>
    let (keyAllowed, rest) := skipGap s.inFlow s.keyAllowed false s.rest
    let s := { s with keyAllowed, rest }
    match rest with
    | [] => (s.unroll (-1)).dropCandidate?.map (·.tokens)
    | c :: cs => do
      let s ← s.dropStale? c
      let s ← (s.unroll c.column).token? c cs
      run? fuel s

end Scanner

def tokens? (cells : List Cell) : Option (List Token) :=
  (Scanner.run? (cells.length + 1) (.start cells)).map Array.toList

end MetricRelay.Yaml
