/-!
# Decimal numerals

A `Numeral` is what the digits of a written number say: a sign, the
digits read as one natural number, how many of them stood after the
point, and the power of ten behind them. Its `toFloat` is the nearest
floating point number. `readFloat?` reads the free form in which
settings give numbers.
-/

namespace MetricRelay.Number

/-- The number `± mantissa · 10 ^ (exponent - places)`. -/
structure Numeral where
  /-- A minus sign was written. -/
  negative : Bool
  /-- All digits before the exponent, read as one number. -/
  mantissa : Nat
  /-- The number of digits after the point. -/
  places : Nat
  /-- The power of ten after the digits. -/
  exponent : Int
deriving Repr, DecidableEq

namespace Numeral

/-- The floating point number nearest to the numeral, infinite where
that is out of range. -/
def toFloat (n : Numeral) : Float :=
  let scale := n.exponent - n.places
  let magnitude := Float.ofScientific n.mantissa (scale < 0) scale.natAbs
  if n.negative then -magnitude else magnitude

end Numeral

/-! ## Integers in decimal digits -/

def digits (n : Nat) : List Char :=
  Nat.toDigits 10 n

/-- The digits of `n` after a minus sign where it is negative. -/
def signedDigits (n : Int) : List Char :=
  if n < 0 then '-' :: digits n.natAbs else digits n.natAbs

def natural (n : Nat) : String :=
  String.ofList (digits n)

def integer (n : Int) : String :=
  String.ofList (signedDigits n)

/-- The number that decimal digits stand for, after `before`. -/
def digitsValue (before : Nat) : List Char → Nat
  | [] => before
  | c :: cs => digitsValue (before * 10 + (c.toNat - '0'.toNat)) cs

/-- The decimal digits at the beginning, and the rest. -/
def spanDigits (cs : List Char) : List Char × List Char :=
  (cs.takeWhile Char.isDigit, cs.dropWhile Char.isDigit)

/-- Reads a natural number: decimal digits, which a plus sign may
precede, and nothing else. -/
def readNatural? (cs : List Char) : Option Nat :=
  let ds :=
    match cs with
    | '+' :: cs => cs
    | cs => cs
  if ds.isEmpty || !ds.all Char.isDigit then none else some (digitsValue 0 ds)

/-! ## Floating point numbers in settings -/

/-- A sign at the beginning: whether it is a minus, and the rest. -/
def readSign : List Char → Bool × List Char
  | '-' :: cs => (true, cs)
  | '+' :: cs => (false, cs)
  | cs => (false, cs)

/-- Reads `e` or `E`, an optional sign and at least one digit, or
nothing at all, up to the end. -/
def readExponent? : List Char → Option Int
  | [] => some 0
  | c :: cs =>
    if c = 'e' ∨ c = 'E' then
      let (negative, cs) := readSign cs
      let (ds, rest) := spanDigits cs
      if ds.isEmpty || !rest.isEmpty then none
      else
        let n : Int := digitsValue 0 ds
        some (if negative then -n else n)
    else none

/-- Reads digits with an optional point, at least one digit in all, and
an optional exponent, up to the end. -/
def readNumeral? (negative : Bool) (cs : List Char) : Option Numeral :=
  let (whole, rest) := spanDigits cs
  let (fraction, rest) :=
    match rest with
    | '.' :: rest => spanDigits rest
    | rest => ([], rest)
  if whole.isEmpty && fraction.isEmpty then none
  else
    (readExponent? rest).map fun exponent =>
      { negative
        mantissa := digitsValue 0 (whole ++ fraction)
        places := fraction.length
        exponent }

def nan : Float := 0.0 / 0.0

def infinity : Float := 1.0 / 0.0

/-- Reads a number in its free form: an optional sign, then a numeral
with or without point and exponent, or in any case `nan`, `inf` or
`infinity`. -/
def readFloat? (s : String) : Option Float :=
  let (negative, cs) := readSign s.toList
  let word := String.ofList (cs.map Char.toLower)
  if word = "nan" then some nan
  else if word = "inf" || word = "infinity" then
    some (if negative then -infinity else infinity)
  else (readNumeral? negative cs).map Numeral.toFloat

end MetricRelay.Number
