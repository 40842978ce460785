/-!
# Characters in their places

A document is read as a list of `Cell`s, each a character with the line
and column it stands in. Line ends of every kind that are written as one
or two control characters become one line feed; the two separators that
are characters of their own stay what they are.
-/

namespace MetricRelay.Yaml

/-- A character in its place. -/
structure Cell where
  char : Char
  /-- The number of characters before it in the document. -/
  index : Nat
  /-- The number of lines before its line. -/
  line : Nat
  /-- The number of characters before it in its line. -/
  column : Nat
deriving Repr, DecidableEq

/-! ## Classes of characters -/

/-- The mark that may stand at the beginning of a document. -/
def byteOrderMark : Char := '\uFEFF'

/-- A document may consist of tabs, line ends and printable characters. -/
def isAllowed (c : Char) : Bool :=
  let n := c.toNat
  n = 0x09 || n = 0x0A || n = 0x0D || (0x20 ≤ n && n ≤ 0x7E) || n = 0x85
    || (0xA0 ≤ n && n ≤ 0xD7FF) || (0xE000 ≤ n && n ≤ 0xFFFD) || 0x10000 ≤ n

def isBreak (c : Char) : Bool :=
  c = '\n' || c = '\r' || c = '\u0085' || c = '\u2028' || c = '\u2029'

def isBlank (c : Char) : Bool :=
  c = ' ' || c = '\t'

/-- A character of names. -/
def isWord (c : Char) : Bool :=
  c.isAlphanum || c = '_' || c = '-'

/-! ## Cells -/

/-- The cells of the characters from a place on. -/
def placeFrom (index line column : Nat) : List Char → List Cell
  | [] => []
  | '\r' :: '\n' :: cs => ⟨'\n', index, line, column⟩ :: placeFrom (index + 2) (line + 1) 0 cs
  | c :: cs =>
    if c = '\r' || c = '\n' || c = '\u0085' then
      ⟨'\n', index, line, column⟩ :: placeFrom (index + 1) (line + 1) 0 cs
    else if isBreak c then ⟨c, index, line, column⟩ :: placeFrom (index + 1) (line + 1) 0 cs
    else ⟨c, index, line, column⟩ :: placeFrom (index + 1) line (column + 1) cs

def place (cs : List Char) : List Cell :=
  placeFrom 0 0 0 cs

namespace Cell

def head? : List Cell → Option Char
  | [] => none
  | c :: _ => some c.char

/-- There is no cell, or its line ends here. -/
def atBreak : List Cell → Bool
  | [] => true
  | c :: _ => isBreak c.char

/-- There is no cell, or it is a blank or its line ends here. -/
def atGap : List Cell → Bool
  | [] => true
  | c :: _ => isBlank c.char || isBreak c.char

/-- The first three characters are `mark` and a gap follows. -/
def atMarker (mark : Char) : List Cell → Bool
  | a :: b :: c :: rest => a.char = mark && b.char = mark && c.char = mark && atGap rest
  | _ => false

/-- A mark between documents stands here, at the beginning of a line. -/
def atDocumentMarker (cs : List Cell) : Bool :=
  match cs with
  | c :: _ => c.column = 0 && (atMarker '-' cs || atMarker '.' cs)
  | [] => false

/-- The cells behind the blanks. -/
def dropBlanks (cs : List Cell) : List Cell :=
  cs.dropWhile fun c => isBlank c.char

/-- The cells from the end of the line on. -/
def dropLine (cs : List Cell) : List Cell :=
  cs.dropWhile fun c => !isBreak c.char

/-- The cells behind the end of a line, where one is. -/
def dropBreak : List Cell → List Cell
  | [] => []
  | c :: cs => if isBreak c.char then cs else c :: cs

/-- The cells behind the blanks and the comment of a line that has
nothing else before its end. -/
def endLine? (cs : List Cell) : Option (List Cell) :=
  let cs := dropBlanks cs
  let cs := if head? cs = some '#' then dropLine cs else cs
  if atBreak cs then some (dropBreak cs) else none

end Cell

end MetricRelay.Yaml
