import MetricRelay.Proofs.Wire.Numbers
import MetricRelay.Wire.Reader

/-!
# Well-formed payloads

The notation of payloads, as trees with a spelling: every way of writing
a value, down to blanks, escapes and the letter before an exponent, is
one tree, and `Tree.bytes` is what is written. A tree cannot be ill
formed. What a text or a number means is said here without the reader:
`text?` undoes the escapes of a text, `Literal.numeral` and
`Literal.integer?` say what number the digits of a literal stand for.

An `Object` is a payload in the form of an object. Its keys have texts;
its values may be anything.
-/

namespace MetricRelay.Wire

open Number (digitsValue)

/-! ## Blanks -/

inductive Blank where
  | space
  | tab
  | lineFeed
  | carriageReturn

def Blank.byte : Blank → UInt8
  | space => 0x20
  | tab => 0x09
  | lineFeed => 0x0A
  | carriageReturn => 0x0D

def blanks (ws : List Blank) : List UInt8 := ws.map Blank.byte

/-! ## Texts -/

/-- The characters that have a letter as their escape. -/
inductive Escape where
  | quote
  | backslash
  | slash
  | backspace
  | formFeed
  | lineFeed
  | carriageReturn
  | tab

namespace Escape

def letter : Escape → UInt8
  | quote => 0x22
  | backslash => 0x5C
  | slash => 0x2F
  | backspace => 0x62
  | formFeed => 0x66
  | lineFeed => 0x6E
  | carriageReturn => 0x72
  | tab => 0x74

def meaning : Escape → UInt8
  | quote => 0x22
  | backslash => 0x5C
  | slash => 0x2F
  | backspace => 0x08
  | formFeed => 0x0C
  | lineFeed => 0x0A
  | carriageReturn => 0x0D
  | tab => 0x09

end Escape

/-- A hexadecimal digit in upper or lower case. -/
structure HexDigit where
  value : Fin 16
  upper : Bool

def HexDigit.byte (h : HexDigit) : UInt8 :=
  if h.value < 10 then UInt8.ofNat (0x30 + h.value)
  else UInt8.ofNat ((if h.upper then 0x41 else 0x61) + (h.value - 10))

/-- The four digits of a code. -/
structure Code where
  first : HexDigit
  second : HexDigit
  third : HexDigit
  fourth : HexDigit

namespace Code

def value (c : Code) : Nat :=
  ((c.first.value.val * 16 + c.second.value) * 16 + c.third.value) * 16 + c.fourth.value

def digits (c : Code) : List UInt8 :=
  [c.first.byte, c.second.byte, c.third.byte, c.fourth.byte]

end Code

/-- What stands between the quotes of a text: bytes as they are, letters
behind a backslash, and codes. -/
inductive Glyph where
  | plain (b : UInt8) (h : 0x20 ≤ b ∧ b ≠ 0x22 ∧ b ≠ 0x5C)
  | escape (e : Escape)
  | code (c : Code)

def Glyph.bytes : Glyph → List UInt8
  | plain b _ => [b]
  | escape e => [0x5C, e.letter]
  | code c => 0x5C :: 0x75 :: c.digits

/-- A text between its quotes. -/
def quotedBytes (gs : List Glyph) : List UInt8 :=
  0x22 :: gs.flatMap Glyph.bytes ++ [0x22]

/-- The bytes that a text stands for. There are none where one half of a
surrogate pair stands without the other. -/
def content? : List Glyph → Option (List UInt8)
  | [] => some []
  | .plain b _ :: gs => (content? gs).map (b :: ·)
  | .escape e :: gs => (content? gs).map (e.meaning :: ·)
  | .code c :: gs =>
    if TextToken.isLow c.value then none
    else if TextToken.isHigh c.value then
      match gs with
      | .code d :: gs =>
        if TextToken.isLow d.value then
          let pair := 0x10000 + (c.value - 0xD800) * 0x400 + (d.value - 0xDC00)
          (content? gs).map (Utf8.encodeChar (Char.ofNat pair) ++ ·)
        else none
      | _ => none
    else (content? gs).map (Utf8.encodeChar (Char.ofNat c.value) ++ ·)

/-- The text that is spelled, if what it stands for is UTF-8. -/
def text? (gs : List Glyph) : Option String :=
  (content? gs).bind Utf8.decode?

/-! ## Numbers -/

inductive PowerSign where
  | none
  | plus
  | minus

/-- The exponent of a number as it is written. -/
structure Power where
  /-- It begins with `E`, not `e`. -/
  capital : Bool
  sign : PowerSign
  digits : List Char
  nonempty : digits ≠ []
  isDigit : ∀ c ∈ digits, c.isDigit

namespace Power

def characters (p : Power) : List Char :=
  (if p.capital then 'E' else 'e')
    :: (match p.sign with | .none => [] | .plus => ['+'] | .minus => ['-']) ++ p.digits

def value (p : Power) : Int :=
  match p.sign with
  | .minus => -(digitsValue 0 p.digits : Int)
  | .none | .plus => digitsValue 0 p.digits

end Power

/-- A number as it is written. -/
structure Literal where
  negative : Bool
  whole : List Char
  /-- The digits behind the point; without digits there is no point. -/
  fraction : List Char
  power : Option Power
  whole_isDigit : ∀ c ∈ whole, c.isDigit
  /-- A zero stands at the beginning only by itself. -/
  whole_leads : whole = ['0'] ∨ ∃ c cs, whole = c :: cs ∧ c ≠ '0'
  fraction_isDigit : ∀ c ∈ fraction, c.isDigit

namespace Literal

/-- Digits with a point before them, if there are any. -/
def pointed : List Char → List Char
  | [] => []
  | c :: cs => '.' :: c :: cs

def characters (n : Literal) : List Char :=
  NumberToken.minus n.negative ++ n.whole ++ pointed n.fraction
    ++ (n.power.map Power.characters).getD []

/-- What the digits say. -/
def numeral (n : Literal) : Number.Numeral where
  negative := n.negative
  mantissa := digitsValue 0 (n.whole ++ n.fraction)
  places := n.fraction.length
  exponent := (n.power.map Power.value).getD 0

/-- The number that the digits are read as. -/
def value (n : Literal) : Float := n.numeral.scaled

/-- The number, if it is written as an integer other than `-0`. -/
def integer? (n : Literal) : Option Int :=
  match n.fraction, n.power with
  | [], .none =>
    if n.negative then
      if n.whole = ['0'] then .none else some (-(digitsValue 0 n.whole : Int))
    else some (digitsValue 0 n.whole)
  | _, _ => .none

end Literal

/-! ## Values -/

inductive Word where
  | null
  | true
  | false

def Word.bytes : Word → List UInt8
  | null => [0x6E, 0x75, 0x6C, 0x6C]
  | true => [0x74, 0x72, 0x75, 0x65]
  | false => [0x66, 0x61, 0x6C, 0x73, 0x65]

def Bracket.opening : Bracket → UInt8
  | square => 0x5B
  | curly => 0x7B

/-- What stands before a value within brackets: in curly ones a key and a
colon. -/
inductive Label : Bracket → Type where
  | element : Label .square
  | member (key : List Glyph) (before behind : List Blank) : Label .curly

def Label.bytes {bracket : Bracket} : Label bracket → List UInt8
  | element => []
  | member key before behind => quotedBytes key ++ blanks before ++ 0x3A :: blanks behind

/-- The parts of a spelling. -/
inductive Part where
  | value
  /-- What follows an opening bracket. -/
  | body (bracket : Bracket)
  /-- What follows a value within brackets. -/
  | rest (bracket : Bracket)

/-- The spellings of values of any depth. -/
inductive Tree : Part → Type where
  | word (w : Word) : Tree .value
  | number (n : Literal) : Tree .value
  | text (gs : List Glyph) : Tree .value
  | nested (bracket : Bracket) (body : Tree (.body bracket)) : Tree .value
  | empty {bracket : Bracket} (ws : List Blank) : Tree (.body bracket)
  | first {bracket : Bracket} (ws : List Blank) (label : Label bracket) (v : Tree .value)
      (rest : Tree (.rest bracket)) : Tree (.body bracket)
  | last {bracket : Bracket} (ws : List Blank) : Tree (.rest bracket)
  | next {bracket : Bracket} (ws ws' : List Blank) (label : Label bracket) (v : Tree .value)
      (rest : Tree (.rest bracket)) : Tree (.rest bracket)

/-- What is written. -/
def Tree.bytes {p : Part} : Tree p → List UInt8
  | .word w => w.bytes
  | .number n => Wire.bytes n.characters
  | .text gs => quotedBytes gs
  | .nested bracket body => bracket.opening :: body.bytes
  | @Tree.empty bracket ws => blanks ws ++ [bracket.closing]
  | .first ws label v rest => blanks ws ++ (label.bytes ++ v.bytes ++ rest.bytes)
  | @Tree.last bracket ws => blanks ws ++ [bracket.closing]
  | .next ws ws' label v rest =>
    blanks ws ++ 0x2C :: (blanks ws' ++ (label.bytes ++ v.bytes ++ rest.bytes))

example : (Tree.nested .square (.first [] .element (.word .null)
    (.next [.space] [.tab] .element (.text [.escape .quote]) (.last [])))).bytes
      = Wire.bytes "[null ,\t\"\\\"\"]".toList := by
  decide

/-! ## Objects -/

/-- A member of the payload, with the blanks around its tokens. -/
structure Member where
  key : List Glyph
  name : String
  named : text? key = some name
  value : Tree .value
  before : List Blank
  beforeColon : List Blank
  behindColon : List Blank
  behind : List Blank

def Member.bytes (m : Member) : List UInt8 :=
  blanks m.before ++ (quotedBytes m.key ++ (blanks m.beforeColon ++ 0x3A :: (blanks m.behindColon
    ++ (m.value.bytes ++ blanks m.behind))))

/-- The values under the key of a part of the metric. -/
def valuesUnder (f : Field) (ms : List Member) : List (Tree .value) :=
  ms.filterMap fun m => if m.name = f.key then some m.value else none

/-- A payload that is an object. -/
structure Object where
  members : List Member
  before : List Blank
  /-- The blanks between the brackets where there is no member. -/
  within : List Blank
  behind : List Blank

namespace Object

/-- The members with commas between them. -/
def inner (o : Object) : List UInt8 :=
  match o.members with
  | [] => blanks o.within
  | m :: ms => m.bytes ++ ms.flatMap fun m => 0x2C :: m.bytes

def bytes (o : Object) : List UInt8 :=
  blanks o.before ++ 0x7B :: (o.inner ++ 0x7D :: blanks o.behind)

def under (o : Object) (f : Field) : List (Tree .value) := valuesUnder f o.members

end Object

end MetricRelay.Wire
