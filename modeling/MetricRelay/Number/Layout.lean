import MetricRelay.Number.Numeral
import MetricRelay.Number.Shortest

/-!
# How floating point numbers are written

Every written form has the digits of the shortest decimal that reads
back; a `Layout` says how they are laid out. Payloads use `Layout.wire`,
measurement lines and log texts `Layout.display`, written configurations
`Layout.settings`.
-/

namespace MetricRelay.Number

/-- The decisions of a written form. -/
structure Layout where
  /-- The places of the first digit, least and greatest, with which a
  number is written without exponent; every number if there are none. -/
  positional : Option (Int × Int)
  /-- A number without fraction ends in `.0`. -/
  pointZero : Bool
  /-- A positive exponent has a sign. -/
  exponentPlus : Bool
  /-- Which of two equally near decimals is taken. -/
  tie : Tie
  /-- The text of the number that is none. -/
  nan : String
  /-- The text of the infinite number, after a minus for the negative
  one. -/
  infinite : String

namespace Layout

/-- Numbers in payloads are written without exponent from `0.00001` to
below ten quadrillion and keep `.0`; a tie goes to the even digit. -/
def wire : Layout :=
  ⟨some (-5, 15), true, true, .toEven, "NaN", "inf"⟩

/-- Numbers in measurements and messages never have an exponent and have
a fraction only where it is not zero. -/
def display : Layout :=
  ⟨none, false, false, .up, "NaN", "inf"⟩

/-- Numbers in written configurations are those of payloads, but positive
exponents have no sign. -/
def settings : Layout :=
  ⟨some (-5, 15), true, false, .toEven, ".nan", ".inf"⟩

/-- The digits with the point where `exponent` puts it. -/
def placed (pointZero : Bool) (ds : List Char) (exponent : Int) : List Char :=
  if 0 ≤ exponent then
    ds ++ List.replicate exponent.toNat '0' ++ (if pointZero then ['.', '0'] else [])
  else
    let places := (-exponent).toNat
    if places < ds.length then
      ds.take (ds.length - places) ++ '.' :: ds.drop (ds.length - places)
    else
      '0' :: '.' :: List.replicate (places - ds.length) '0' ++ ds

/-- The digits with the point after the first one, and the place of the
first one as exponent. -/
def scientific (plus : Bool) (ds : List Char) (lead : Int) : List Char :=
  let point :=
    match ds with
    | first :: second :: rest => first :: '.' :: second :: rest
    | ds => ds
  point ++ 'e' :: (if plus && 0 ≤ lead then ['+'] else []) ++ signedDigits lead

/-- The text of a finite number without its sign. -/
def magnitude (l : Layout) (b : Binary) : List Char :=
  let d := b.shortest l.tie
  let ds := digits d.digits
  let lead := d.exponent + (ds.length - 1 : Nat)
  match l.positional with
  | none => placed l.pointZero ds d.exponent
  | some (least, greatest) =>
    if least ≤ lead && lead ≤ greatest then placed l.pointZero ds d.exponent
    else scientific l.exponentPlus ds lead

def characters (l : Layout) (x : Float) : List Char :=
  if x.isNaN then l.nan.toList
  else
    let minus := if isNegative x then ['-'] else []
    if x.isFinite then minus ++ l.magnitude (Binary.ofFloat x)
    else minus ++ l.infinite.toList

def write (l : Layout) (x : Float) : String :=
  String.ofList (l.characters x)

/-- The text of a number with a sign also where it is not negative. -/
def writeSigned (l : Layout) (x : Float) : String :=
  if x.isNaN || isNegative x then l.write x else "+" ++ l.write x

end Layout

end MetricRelay.Number
