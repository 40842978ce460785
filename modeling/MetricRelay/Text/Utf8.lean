/-!
# Text for bytes that may not be UTF-8

`Utf8.lossy` shows any bytes as text. Bytes that form characters give
those characters; every longest run that could still have begun a
character but does not complete it, and every byte that can begin none,
gives one replacement character.
-/

namespace MetricRelay.Utf8

/-- A character of several bytes whose last bytes are still missing. -/
structure Partial where
  /-- The bits of the bytes seen so far. -/
  code : Nat
  /-- How many bytes are missing, at least one. -/
  missing : Nat
  /-- The least next byte that continues the character. -/
  low : UInt8
  /-- The greatest next byte that continues the character. -/
  high : UInt8

/-- What a byte is that stands where a character may begin. -/
inductive Lead where
  /-- A character by itself. -/
  | whole (c : Char)
  /-- The first byte of a longer character. -/
  | opens (p : Partial)
  /-- No beginning of a character. -/
  | stray

/-- Reads a byte as the beginning of a character. The ranges exclude
overlong forms, surrogates and code points above the last one. -/
def lead (b : UInt8) : Lead :=
  if b < 0x80 then .whole (Char.ofNat b.toNat)
  else if b < 0xC2 then .stray
  else if b < 0xE0 then .opens ⟨b.toNat % 0x20, 1, 0x80, 0xBF⟩
  else if b = 0xE0 then .opens ⟨0, 2, 0xA0, 0xBF⟩
  else if b = 0xED then .opens ⟨0xD, 2, 0x80, 0x9F⟩
  else if b < 0xF0 then .opens ⟨b.toNat % 0x10, 2, 0x80, 0xBF⟩
  else if b = 0xF0 then .opens ⟨0, 3, 0x90, 0xBF⟩
  else if b < 0xF4 then .opens ⟨b.toNat % 0x08, 3, 0x80, 0xBF⟩
  else if b = 0xF4 then .opens ⟨4, 3, 0x80, 0x8F⟩
  else .stray

/-- Stands for bytes that form no character. -/
def replacement : Char := '\uFFFD'

/-- Reads a byte where a character may begin: the characters shown for
it at once, and the character that it leaves open. -/
def begin (b : UInt8) : List Char × Option Partial :=
  match lead b with
  | .whole c => ([c], none)
  | .opens p => ([], some p)
  | .stray => ([replacement], none)

/-- Reads the next byte after an optional open character. -/
def next : Option Partial → UInt8 → List Char × Option Partial
  | none, b => begin b
  | some p, b =>
    if p.low ≤ b ∧ b ≤ p.high then
      let code := p.code * 0x40 + b.toNat % 0x40
      if p.missing ≤ 1 then ([Char.ofNat code], none)
      else ([], some ⟨code, p.missing - 1, 0x80, 0xBF⟩)
    else
      let (shown, opened) := begin b
      (replacement :: shown, opened)

/-- The characters for `bytes`, read after an optional open character. -/
def characters : Option Partial → List UInt8 → List Char
  | none, [] => []
  | some _, [] => [replacement]
  | opened, b :: bytes =>
    let (shown, opened) := next opened b
    shown ++ characters opened bytes

/-- The text shown for any bytes. -/
def lossy (bytes : List UInt8) : String :=
  String.ofList (characters none bytes)

/-- The text that the bytes encode, if they are UTF-8. -/
def decode? (bytes : List UInt8) : Option String :=
  String.fromUTF8? ⟨bytes.toArray⟩

def encodeChar (c : Char) : List UInt8 :=
  String.utf8EncodeChar c

def encode (s : String) : List UInt8 :=
  s.toList.flatMap encodeChar

end MetricRelay.Utf8
