import MetricRelay.Yaml.Token.Folding

/-!
# Quoted scalars

Between single quotes a quote is written twice and nothing else is
special; between double quotes a backslash begins an escape. Both may go
on over several lines, but not across a mark between documents.
-/

namespace MetricRelay.Yaml

/-- Reads a scalar behind its single quote: its text, and the cells
behind the closing quote. `quoted` says that the cell before was a quote
that is yet to be judged. -/
def readSingle? : (quoted : Bool) → (text : List Char) → Option Gap → List Cell →
    Option (List Char × List Cell)
  | true, text, _, [] => some (text.reverse, [])
  | false, _, _, [] => none
  | true, text, gap, c :: cs =>
    if c.char = '\'' then readSingle? false ('\'' :: text) gap cs
    else some (text.reverse, c :: cs)
  | false, text, gap, c :: cs =>
    if isBlank c.char || isBreak c.char then
      readSingle? false text (some ((gap.getD .none).add c.char)) cs
    else if gap.isSome && Cell.atDocumentMarker (c :: cs) then none
    else
      let text := (gap.getD .none).text ++ text
      if c.char = '\'' then readSingle? true text none cs
      else readSingle? false (c.char :: text) none cs

/-- What a character behind a backslash begins. -/
inductive Escape where
  | char (c : Char)
  /-- A code of so many hexadecimal digits. -/
  | code (digits : Nat)

/-- The escapes between double quotes. -/
def escape? (c : Char) : Option Escape :=
  match c with
  | '0' => some (.char '\x00')
  | 'a' => some (.char '\x07')
  | 'b' => some (.char '\x08')
  | 't' => some (.char '\t')
  | '\t' => some (.char '\t')
  | 'n' => some (.char '\n')
  | 'v' => some (.char '\x0b')
  | 'f' => some (.char '\x0c')
  | 'r' => some (.char '\r')
  | 'e' => some (.char '\x1b')
  | ' ' => some (.char ' ')
  | '"' => some (.char '"')
  | '/' => some (.char '/')
  | '\\' => some (.char '\\')
  | 'N' => some (.char '\u0085')
  | '_' => some (.char '\u00a0')
  | 'L' => some (.char '\u2028')
  | 'P' => some (.char '\u2029')
  | 'x' => some (.code 2)
  | 'u' => some (.code 4)
  | 'U' => some (.code 8)
  | _ => none

def hexValue? (c : Char) : Option Nat :=
  if c.isDigit then some (c.toNat - '0'.toNat)
  else if 'a' ≤ c ∧ c ≤ 'f' then some (c.toNat - 'a'.toNat + 10)
  else if 'A' ≤ c ∧ c ≤ 'F' then some (c.toNat - 'A'.toNat + 10)
  else none

/-- The character with a code, unless there is none. -/
def charOfCode? (n : Nat) : Option Char :=
  if h : n.isValidChar then some (Char.ofNatAux n h) else none

/-- Where between double quotes the next cell stands. -/
inductive DoubleStage where
  /-- Among the characters. -/
  | plain
  /-- Behind a backslash. -/
  | escape
  /-- In a code of which so many digits are missing. -/
  | code (missing value : Nat)

/-- Reads a scalar behind its double quote: its text, and the cells
behind the closing quote. -/
def readDouble? : DoubleStage → (text : List Char) → Option Gap → List Cell →
    Option (List Char × List Cell)
  | _, _, _, [] => none
  | .plain, text, gap, c :: cs =>
    if isBlank c.char || isBreak c.char then
      readDouble? .plain text (some ((gap.getD .none).add c.char)) cs
    else if gap.isSome && Cell.atDocumentMarker (c :: cs) then none
    else
      let text := (gap.getD .none).text ++ text
      if c.char = '"' then some (text.reverse, cs)
      else if c.char = '\\' then readDouble? .escape text none cs
      else readDouble? .plain (c.char :: text) none cs
  | .escape, text, _, c :: cs =>
    if isBreak c.char then readDouble? .plain text (some .escaped) cs
    else
      match escape? c.char with
      | none => none
      | some (.char e) => readDouble? .plain (e :: text) none cs
      | some (.code digits) => readDouble? (.code digits 0) text none cs
  | .code missing value, text, gap, c :: cs =>
    match hexValue? c.char with
    | none => none
    | some d =>
      let value := value * 16 + d
      if missing ≤ 1 then
        match charOfCode? value with
        | none => none
        | some e => readDouble? .plain (e :: text) none cs
      else readDouble? (.code (missing - 1) value) text gap cs

end MetricRelay.Yaml
