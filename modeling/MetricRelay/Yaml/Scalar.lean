import MetricRelay.Number.Numeral

/-!
# What plain scalars stand for

Texts that are not quoted may stand for nothing, a truth value or a
number.
-/

namespace MetricRelay.Yaml

def isNull (s : String) : Bool :=
  s = "~" || s = "null" || s = "Null" || s = "NULL"

def flag? (s : String) : Option Bool :=
  if s = "true" || s = "True" || s = "TRUE" then some true
  else if s = "false" || s = "False" || s = "FALSE" then some false
  else none

/-- A text without the plus sign at its beginning, behind which no other
sign may stand. -/
def withoutPlus? (s : String) : Option String :=
  match s.toList with
  | '+' :: '+' :: _ => none
  | '+' :: '-' :: _ => none
  | '+' :: cs => some (String.ofList cs)
  | _ => some s

/-- The number that a text stands for: one of the words for infinity and
for what is no number, or a numeral that is in range. -/
def float? (s : String) : Option Float :=
  match withoutPlus? s with
  | none => none
  | some t =>
    if t = ".inf" || t = ".Inf" || t = ".INF" then some Number.infinity
    else if s = "-.inf" || s = "-.Inf" || s = "-.INF" then some (-Number.infinity)
    else if s = ".nan" || s = ".NaN" || s = ".NAN" then some Number.nan
    else
      match Number.readFloat? t with
      | some x => if x.isFinite then some x else none
      | none => none

/-! ## Integers -/

/-- The text without its sign, and whether that is a minus. -/
def unsigned (s : List Char) : Bool × List Char :=
  match s with
  | '-' :: cs => (true, cs)
  | '+' :: cs => (false, cs)
  | cs => (false, cs)

/-- The base that the beginning of a number names, and its digits. -/
def radixOf : List Char → Nat × List Char
  | '0' :: 'x' :: cs => (16, cs)
  | '0' :: 'o' :: cs => (8, cs)
  | '0' :: 'b' :: cs => (2, cs)
  | cs => (10, cs)

def digitValue (c : Char) : Nat :=
  if c.isDigit then c.toNat - '0'.toNat
  else if 'a' ≤ c ∧ c ≤ 'f' then c.toNat - 'a'.toNat + 10
  else if 'A' ≤ c ∧ c ≤ 'F' then c.toNat - 'A'.toNat + 10
  else 16

/-- The value of digits to a base. -/
def digitsValue? (radix : Nat) (cs : List Char) : Option Nat :=
  if cs.isEmpty || !cs.all fun c => digitValue c < radix then none
  else some (cs.foldl (fun n c => n * radix + digitValue c) 0)

/-- Decimal digits of which the first is a zero, and not the only one. -/
def isZeroLed (s : String) : Bool :=
  match (unsigned s.toList).2 with
  | '0' :: c :: cs => (c :: cs).all Char.isDigit
  | _ => false

/-- The text stands for an integer of at most 128 bits. -/
def isInteger (s : String) : Bool :=
  let (negative, cs) := unsigned s.toList
  let (radix, digits) := radixOf cs
  if radix = 10 && isZeroLed s then false
  else
    match digitsValue? radix digits with
    | some n => if negative then n ≤ Nat.pow 2 127 else n < Nat.pow 2 128
    | none => false

end MetricRelay.Yaml
