import MetricRelay.Text.Utf8
import MetricRelay.Wire.Fault

/-!
# Quoted texts, byte by byte

A `TextToken` is a quoted text of which some bytes have been read. Texts
that are read for their content are strict: their escapes must name
characters, surrogates only in pairs. Texts that are skipped only have
to be delimited: no control characters, no unknown escapes.
-/

namespace MetricRelay.Wire

/-- Where in a text the next byte stands. -/
inductive TextStage where
  /-- Among the characters. -/
  | plain
  /-- Behind a backslash. -/
  | escape
  /-- Among the four digits of a code, the last one read first, perhaps
  for the second half of a surrogate pair. -/
  | code (high : Option Nat) (digits : List UInt8)
  /-- Behind the first half of a surrogate pair, before a backslash. -/
  | pair (high : Nat)
  /-- Behind that backslash. -/
  | pairEscape (high : Nat)
deriving Repr, DecidableEq

/-- A quoted text behind its opening quote. -/
structure TextToken where
  /-- The text is read for its content. -/
  strict : Bool
  /-- The bytes of the content, the last one first. -/
  content : List UInt8
  stage : TextStage
deriving Repr, DecidableEq

/-- What a byte does to a text. -/
inductive TextStep where
  | goes (token : TextToken)
  /-- The byte was the closing quote. -/
  | closed (content : List UInt8)

namespace TextToken

def start (strict : Bool) : TextToken := ⟨strict, [], .plain⟩

/-- The character that a backslash and this byte stand for. -/
def escaped? (b : UInt8) : Option UInt8 :=
  if b = 0x22 then some 0x22       -- quote
  else if b = 0x5C then some 0x5C  -- backslash
  else if b = 0x2F then some 0x2F  -- slash
  else if b = 0x62 then some 0x08  -- b
  else if b = 0x66 then some 0x0C  -- f
  else if b = 0x6E then some 0x0A  -- n
  else if b = 0x72 then some 0x0D  -- r
  else if b = 0x74 then some 0x09  -- t
  else none

/-- The value of a hexadecimal digit. -/
def hexValue? (b : UInt8) : Option Nat :=
  if 0x30 ≤ b ∧ b ≤ 0x39 then some (b.toNat - 0x30)
  else if 0x41 ≤ b ∧ b ≤ 0x46 then some (b.toNat - 0x41 + 10)
  else if 0x61 ≤ b ∧ b ≤ 0x66 then some (b.toNat - 0x61 + 10)
  else none

/-- The code with the given digits, the last one first. -/
def codeOf? : List UInt8 → Option Nat
  | [] => some 0
  | b :: bs =>
    match codeOf? bs, hexValue? b with
    | some n, some d => some (n * 16 + d)
    | _, _ => none

/-- The first half of a surrogate pair. -/
def isHigh (code : Nat) : Bool := 0xD800 ≤ code && code ≤ 0xDBFF

/-- The second half of a surrogate pair. -/
def isLow (code : Nat) : Bool := 0xDC00 ≤ code && code ≤ 0xDFFF

/-- The token with a character added to its content. -/
def push (t : TextToken) (code : Nat) : TextToken :=
  { t with
    content := (Utf8.encodeChar (Char.ofNat code)).reverse ++ t.content
    stage := .plain }

/-- The token behind a complete code. -/
def takeCode (t : TextToken) (high : Option Nat) (code : Nat) : Except Fault TextToken :=
  if t.strict then
    match high with
    | some high =>
      if isLow code then .ok (t.push (0x10000 + (high - 0xD800) * 0x400 + (code - 0xDC00)))
      else .error .malformed
    | none =>
      if isLow code then .error .malformed
      else if isHigh code then .ok { t with stage := .pair code }
      else .ok (t.push code)
  else .ok { t with stage := .plain }

/-- Reads one byte. The digits of a code are looked at when all four are
there. -/
def feed (t : TextToken) (b : UInt8) : Except Fault TextStep :=
  match t.stage with
  | .plain =>
    if b = 0x22 then .ok (.closed t.content)
    else if b = 0x5C then .ok (.goes { t with stage := .escape })
    else if b < 0x20 then .error .malformed
    else if t.strict then .ok (.goes { t with content := b :: t.content })
    else .ok (.goes t)
  | .escape =>
    if b = 0x75 then .ok (.goes { t with stage := .code none [] })
    else
      match escaped? b with
      | some c =>
        if t.strict then .ok (.goes { t with content := c :: t.content, stage := .plain })
        else .ok (.goes { t with stage := .plain })
      | none => .error .malformed
  | .code high digits =>
    if digits.length < 3 then .ok (.goes { t with stage := .code high (b :: digits) })
    else
      match codeOf? (b :: digits) with
      | some code => (t.takeCode high code).map .goes
      | none => .error .malformed
  | .pair high =>
    if b = 0x5C then .ok (.goes { t with stage := .pairEscape high }) else .error .malformed
  | .pairEscape high =>
    if b = 0x75 then .ok (.goes { t with stage := .code (some high) [] })
    else .error .malformed

/-- The text with the given content, the last byte first, which must be
UTF-8. -/
def textOf (content : List UInt8) : Except Fault String :=
  match Utf8.decode? content.reverse with
  | some text => .ok text
  | none => .error .malformed

end TextToken

end MetricRelay.Wire
