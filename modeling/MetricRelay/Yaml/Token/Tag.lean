import MetricRelay.Text.Utf8
import MetricRelay.Yaml.Token.Basic
import MetricRelay.Yaml.Token.Quoted

/-!
# Names, tags and directives

Anchors and aliases have names; a tag has a handle, which directives give
a meaning, and a suffix. In tags a percent sign begins a byte in
hexadecimal digits.
-/

namespace MetricRelay.Yaml

/-- The word characters at the beginning, and the cells behind them. -/
def spanWord (cs : List Cell) : List Char × List Cell :=
  let (word, rest) := cs.span fun c => isWord c.char
  (word.map (·.char), rest)

/-- A character that may stand directly behind a name. -/
def mayFollowName (c : Char) : Bool :=
  isBlank c || isBreak c || c = '?' || c = ':' || c = ',' || c = ']' || c = '\x7d' || c = '%'
    || c = '@' || c = '`'

def readName? (cs : List Cell) : Option (String × List Cell) :=
  let (name, rest) := spanWord cs
  if name.isEmpty || !(Cell.head? rest).all mayFollowName then none
  else some (String.ofList name, rest)

/-! ## Tags -/

/-- A character of tags, or one that is so between angle brackets only. -/
def isTagChar (verbatim : Bool) (c : Char) : Bool :=
  isWord c || ";/?:@&=+$.%!~*'()".toList.contains c
    || (verbatim && (c = ',' || c = '[' || c = ']'))

/-- The number of bytes of the character that begins with a byte. -/
def byteCount? (b : UInt8) : Option Nat :=
  if b < 0x80 then some 1
  else if 0xC0 ≤ b ∧ b < 0xE0 then some 2
  else if 0xE0 ≤ b ∧ b < 0xF0 then some 3
  else if 0xF0 ≤ b ∧ b < 0xF8 then some 4
  else none

/-- Reads the characters of a tag as bytes, the last byte first.
`missing` bytes of a character are still to come. -/
def readTagBytes? (verbatim : Bool) : (missing : Nat) → (bytes : List UInt8) → List Cell →
    Option (List UInt8 × List Cell)
  | 0, bytes, [] => some (bytes, [])
  | _ + 1, _, [] => none
  | missing, bytes, c :: cs =>
    if c.char = '%' then
      match cs with
      | a :: b :: cs =>
        match hexValue? a.char, hexValue? b.char with
        | some high, some low =>
          let byte := UInt8.ofNat (high * 16 + low)
          match missing with
          | 0 =>
            match byteCount? byte with
            | some count => readTagBytes? verbatim (count - 1) (byte :: bytes) cs
            | none => none
          | missing + 1 =>
            if 0x80 ≤ byte ∧ byte < 0xC0 then
              readTagBytes? verbatim missing (byte :: bytes) cs
            else none
        | _, _ => none
      | _ => none
    else if missing ≠ 0 then none
    else if isTagChar verbatim c.char then
      readTagBytes? verbatim 0 ((Utf8.encodeChar c.char).reverse ++ bytes) cs
    else some (bytes, c :: cs)

def readTagText? (verbatim : Bool) (cs : List Cell) : Option (String × List Cell) :=
  (readTagBytes? verbatim 0 [] cs).map fun (bytes, cs) => (Utf8.lossy bytes.reverse, cs)

/-- Reads a handle: an exclamation mark, word characters and perhaps
another mark. The second part says whether that mark is there. -/
def readHandle? : List Cell → Option (String × Bool × List Cell)
  | [] => none
  | c :: cs =>
    if c.char = '!' then
      let (word, rest) := spanWord cs
      match rest with
      | d :: rest' =>
        if d.char = '!' then some (String.ofList ('!' :: word ++ ['!']), true, rest')
        else some (String.ofList ('!' :: word), false, rest)
      | [] => some (String.ofList ('!' :: word), false, [])
    else none

/-- A tag ends before a gap, within brackets also before a comma. -/
def endsTag (inFlow : Bool) (cs : List Cell) : Bool :=
  Cell.atGap cs || (inFlow && Cell.head? cs = some ',')

/-- Reads a tag up to its end: its handle, its suffix and what follows. -/
def readTagParts? (cs : List Cell) : Option (String × String × List Cell) :=
  match cs with
  | a :: b :: rest =>
    if a.char = '!' && b.char = '<' then do
      let (suffix, rest) ← readTagText? true rest
      match rest with
      | c :: rest => if c.char = '>' && suffix != "" then some ("", suffix, rest) else none
      | [] => none
    else named
  | _ => named
where
  /-- Reads a tag with a handle. -/
  named : Option (String × String × List Cell) := do
    let (handle, closed, rest) ← readHandle? cs
    let (text, rest) ← readTagText? false rest
    if closed then
      if text = "" then none else some (handle, text, rest)
    else
      let suffix := String.ofList (handle.toList.drop 1) ++ text
      if suffix = "" then some ("", "!", rest) else some ("!", suffix, rest)

def readTag? (inFlow : Bool) (cs : List Cell) : Option (Token × List Cell) := do
  let (handle, suffix, rest) ← readTagParts? cs
  if endsTag inFlow rest then some (.tag handle suffix, rest) else none

/-! ## Directives -/

/-- Reads a number of at most nine digits. -/
def readVersionNumber? (cs : List Cell) : Option (Nat × List Cell) :=
  let (digits, rest) := cs.span fun c => c.char.isDigit
  if digits.isEmpty || 9 < digits.length then none
  else some (digits.foldl (fun n c => n * 10 + (c.char.toNat - '0'.toNat)) 0, rest)

/-- Reads a version behind its directive's name. -/
def readVersion? (cs : List Cell) : Option (Token × List Cell) := do
  let (major, cs) ← readVersionNumber? (Cell.dropBlanks cs)
  match cs with
  | c :: cs =>
    if c.char = '.' then
      let (minor, cs) ← readVersionNumber? cs
      some (.version major minor, cs)
    else none
  | [] => none

/-- Reads a handle and its meaning behind their directive's name. -/
def readTagHandle? (cs : List Cell) : Option (Token × List Cell) := do
  let (handle, closed, cs) ← readHandle? (Cell.dropBlanks cs)
  if !closed && handle != "!" then none
  else if !(Cell.head? cs).any isBlank then none
  else
    let (meaning, cs) ← readTagText? true (Cell.dropBlanks cs)
    if meaning = "" || !Cell.atGap cs then none else some (.tagHandle handle meaning, cs)

/-- Reads a directive behind its percent sign. -/
def readDirective? (cs : List Cell) : Option (Token × List Cell) := do
  let (name, rest) := spanWord cs
  if !Cell.atGap rest then none
  else
    let (token, rest) ←
      if String.ofList name = "YAML" then readVersion? rest
      else if String.ofList name = "TAG" then readTagHandle? rest
      else none
    let rest ← Cell.endLine? rest
    some (token, rest)

end MetricRelay.Yaml
