import MetricRelay.Config.Source
import MetricRelay.Number.Layout
import MetricRelay.Yaml.Cell
import MetricRelay.Yaml.Scalar

/-!
# Writing documents

Plain data are written in blocks, two spaces deeper for every level; the
items of a list are no deeper than its name, and what is empty is written
in brackets. A text is written plain where it reads back as that text,
else between quotes, or as a literal block if it has several lines.
-/

namespace MetricRelay.Yaml

open Config (Tree)

/-! ## What can be said of a text -/

/-- The character may stand in a document as it is. -/
def isPrintable (c : Char) : Bool :=
  let n := c.toNat
  n = 0x0A || (0x20 ≤ n && n ≤ 0x7E) || (0xA0 ≤ n && n ≤ 0xD7FF)
    || (0xE000 ≤ n && n ≤ 0xFFFD && c != byteOrderMark) || 0x10000 ≤ n

/-- A blank, a line end or the end of the text. -/
def isGapEnd : List Char → Bool
  | [] => true
  | c :: _ => isBlank c || isBreak c || c = '\x00'

/-- A text that begins so is never plain. -/
def opensOther : List Char → Bool
  | [] => false
  | c :: cs =>
    "#,[]\x7b\x7d&*!|>'\"%@`".toList.contains c || ((c = '?' || c = ':' || c = '-') && isGapEnd cs)

/-- The text begins like a mark between documents. -/
def opensDocument : List Char → Bool
  | '-' :: '-' :: '-' :: _ => true
  | '.' :: '.' :: '.' :: _ => true
  | _ => false

/-- Behind the beginning there is a colon before a gap or a number sign
behind one; `gap` says that the character before is one. -/
def holdsIndicator : (gap : Bool) → List Char → Bool
  | _, [] => false
  | gap, c :: cs =>
    (c = ':' && isGapEnd cs) || (c = '#' && gap) || holdsIndicator (isBlank c || isBreak c) cs

/-- A space stands directly before or behind a line end, as `first` and
`second` say. -/
def holdsPair (first second : Char → Bool) : List Char → Bool
  | a :: b :: cs => (first a && second b) || holdsPair first second (b :: cs)
  | _ => false

def isSpace (c : Char) : Bool := c = ' '

def isSpaceOrBreak (c : Char) : Bool := c = ' ' || isBreak c

/-- The text can only be written between double quotes. -/
def needsEscapes (cs : List Char) : Bool :=
  !cs.all isPrintable || holdsPair isSpace isBreak cs

/-- The text may be written plain in a block. -/
def allowsPlain (cs : List Char) : Bool :=
  match cs with
  | [] => true
  | c :: rest =>
    !(opensDocument cs || opensOther cs || holdsIndicator (isBlank c || isBreak c) rest
      || isSpaceOrBreak c || (cs.getLast?.any isSpaceOrBreak) || cs.any isBreak
      || needsEscapes cs)

/-- The text may be written between single quotes. -/
def allowsSingle (cs : List Char) : Bool :=
  !(needsEscapes cs || holdsPair isBreak isSpace cs)

/-- The text may be written as a literal block. -/
def allowsLiteral (cs : List Char) : Bool :=
  !(cs.isEmpty || needsEscapes cs || cs.getLast? == some ' ')

/-- The plain text would be read as something else than a text. -/
def readsAsOther (s : String) : Bool :=
  s = "" || isNull s || (flag? s).isSome || isInteger s || (float? s).isSome || isZeroLed s

/-! ## The styles of texts -/

/-- The text between single quotes, where lines behind line ends of its
own are indented. -/
def singleQuoted (indent : Nat) (cs : List Char) : List Char :=
  '\'' :: go false cs ++ ['\'']
where
  /-- The characters; `broken` says that a line has ended. -/
  go : (broken : Bool) → List Char → List Char
  | true, [] => List.replicate indent ' '
  | false, [] => []
  | broken, c :: cs =>
    if isBreak c then c :: go true cs
    else
      (if broken then List.replicate indent ' ' else [])
        ++ (if c = '\'' then ['\'', '\''] else [c]) ++ go false cs

/-- The upper case hexadecimal digits of a number, with zeros in front up
to `width`. -/
def hexDigits (width n : Nat) : List Char :=
  let ds := (Nat.toDigits 16 n).map Char.toUpper
  List.replicate (width - ds.length) '0' ++ ds

/-- What stands for a character between double quotes. -/
def escaped (c : Char) : List Char :=
  match c with
  | '\x00' => ['\\', '0']
  | '\x07' => ['\\', 'a']
  | '\x08' => ['\\', 'b']
  | '\t' => ['\\', 't']
  | '\n' => ['\\', 'n']
  | '\x0b' => ['\\', 'v']
  | '\x0c' => ['\\', 'f']
  | '\r' => ['\\', 'r']
  | '\x1b' => ['\\', 'e']
  | '"' => ['\\', '"']
  | '\\' => ['\\', '\\']
  | '\u0085' => ['\\', 'N']
  | '\u2028' => ['\\', 'L']
  | '\u2029' => ['\\', 'P']
  | c =>
    let n := c.toNat
    if isPrintable c then [c]
    else if n ≤ 0xFF then '\\' :: 'x' :: hexDigits 2 n
    else if n ≤ 0xFFFF then '\\' :: 'u' :: hexDigits 4 n
    else '\\' :: 'U' :: hexDigits 8 n

/-- The text between double quotes. -/
def doubleQuoted (cs : List Char) : List Char :=
  '"' :: cs.flatMap escaped ++ ['"']

def quotedText (indent : Nat) (cs : List Char) : List Char :=
  if allowsSingle cs then singleQuoted indent cs else doubleQuoted cs

/-- What the header of a literal block says about the line ends at the
end of the text. -/
def chompingMark (cs : List Char) : List Char :=
  match cs.reverse with
  | [] => ['-']
  | [c] => if isBreak c then ['+'] else ['-']
  | c :: d :: _ => if !isBreak c then ['-'] else if isBreak d then ['+'] else []

/-- The lines of a literal block; `broken` says that a line begins. -/
def literalLines (indent : Nat) : (broken : Bool) → List Char → List Char
  | _, [] => []
  | broken, c :: cs =>
    if isBreak c then c :: literalLines indent true cs
    else (if broken then List.replicate indent ' ' else []) ++ c :: literalLines indent false cs

def literal (indent : Nat) (cs : List Char) : List Char :=
  let hint := if cs.head?.any isSpaceOrBreak then ['2'] else []
  '|' :: hint ++ chompingMark cs ++ '\n' :: literalLines indent true cs

/-- The text, and a line end unless it ends with one of its own. -/
def withLineEnd (cs : List Char) : List Char :=
  if cs.getLast?.any isBreak then cs else cs ++ ['\n']

/-- A text as a value whose further lines are indented by `indent`, with
the end of its line. -/
def textValue (indent : Nat) (s : String) : List Char :=
  let cs := s.toList
  if cs.contains '\n' then
    if allowsLiteral cs then withLineEnd (literal indent cs) else doubleQuoted cs ++ ['\n']
  else if readsAsOther s || !allowsPlain cs then quotedText indent cs ++ ['\n']
  else cs ++ ['\n']

/-! ## Keys -/

/-- The longest key, in bytes, that is written without a mark. -/
def longestPlainKey : Nat := 128

/-- A key on one line. -/
def keyText (indent : Nat) (s : String) : List Char :=
  let cs := s.toList
  if readsAsOther s || !allowsPlain cs then quotedText indent cs else cs

/-- A key up to where its value follows. A key that is long or has several
lines has a mark and lines of its own. -/
def key (indent : Nat) (s : String) : List Char :=
  if s.toList.any isBreak || longestPlainKey < s.utf8ByteSize then
    '?' :: ' ' :: textValue (indent + 2) s ++ List.replicate indent ' ' ++ [':']
  else keyText (indent + 2) s ++ [':']

/-! ## Data -/

/-- A value that has no parts, with the end of its line. -/
def leaf (indent : Nat) : Tree → List Char
  | .null => "null\n".toList
  | .flag b => (if b then "true\n" else "false\n").toList
  | .number x => Number.Layout.settings.characters x ++ ['\n']
  | .text s => textValue indent s
  | .list _ => "[]\n".toList
  | .record _ => "\x7b\x7d\n".toList

mutual

/-- A value behind its key in a record that is indented by `indent`. -/
def value (indent : Nat) : Tree → List Char
  | .record (m :: ms) => '\n' :: members (indent + 2) true (m :: ms)
  | .list (t :: ts) => '\n' :: items indent (t :: ts)
  | t => ' ' :: leaf (indent + 2) t

/-- The members of a record; `own` says that the first one begins a line
of its own. -/
def members (indent : Nat) : (own : Bool) → List (String × Tree) → List Char
  | _, [] => []
  | own, (name, t) :: ms =>
    (if own then List.replicate indent ' ' else []) ++ key indent name ++ value indent t
      ++ members indent true ms

def items (indent : Nat) : List Tree → List Char
  | [] => []
  | t :: ts =>
    List.replicate indent ' ' ++ '-' :: ' ' :: item indent t ++ items indent ts

/-- An item of a list behind its mark. -/
def item (indent : Nat) : Tree → List Char
  | .record (m :: ms) => members (indent + 2) false (m :: ms)
  | .list (t :: ts) => '-' :: ' ' :: item (indent + 2) t ++ items (indent + 2) ts
  | t => leaf (indent + 2) t

end

def write (t : Tree) : String :=
  String.ofList <|
    match t with
    | .record (m :: ms) => members 0 true (m :: ms)
    | .list (t :: ts) => items 0 (t :: ts)
    | t => leaf 2 t

end MetricRelay.Yaml
