/-!
# The exact value of a floating point number

A finite number is `± mantissa · 2 ^ exponent`, read off its bits
(`ofFloat`). `truncate` takes the whole part of any number into 64 bits.
-/

namespace MetricRelay.Number

/-- The number `± mantissa · 2 ^ exponent`. -/
structure Binary where
  /-- The sign, which zero has too. -/
  negative : Bool
  /-- The significand, below `2 ^ 53`. -/
  mantissa : Nat
  /-- The power of two. -/
  exponent : Int
deriving Repr, DecidableEq

namespace Binary

/-- The bits of the significand that are stored. -/
def fractionBits : Nat := 52

/-- The least exponent, shared by zero and the numbers below the normal
range. -/
def leastExponent : Int := -1074

/-- The exact value of `x`; meaningful for finite `x` only. -/
def ofFloat (x : Float) : Binary :=
  let bits := x.toBits.toNat
  let fraction := bits % Nat.pow 2 fractionBits
  let scale := bits / Nat.pow 2 fractionBits % Nat.pow 2 11
  { negative := bits / Nat.pow 2 63 = 1
    mantissa := if scale = 0 then fraction else fraction + Nat.pow 2 fractionBits
    exponent := leastExponent + ((scale - 1 : Nat) : Int) }

/-- The next number towards zero is only half as far away as the next
one away from it. -/
def nearBelow (b : Binary) : Bool :=
  b.mantissa = Nat.pow 2 fractionBits && b.exponent != leastExponent

/-- The absolute value without its fraction. -/
def whole (b : Binary) : Nat :=
  if 0 ≤ b.exponent then b.mantissa * Nat.pow 2 b.exponent.toNat
  else b.mantissa / Nat.pow 2 (-b.exponent).toNat

end Binary

/-- The sign bit of `x`, which NaN may have too. -/
def isNegative (x : Float) : Bool :=
  x.toBits.toNat / Nat.pow 2 63 = 1

/-- The whole part of `x`, no further than the ends of the 64 bit
integers; NaN has the whole part 0. -/
def truncate (x : Float) : Int64 :=
  if x.isNaN then 0
  else if x.isFinite then
    let b := Binary.ofFloat x
    Int64.ofIntClamp (if b.negative then -(b.whole : Int) else b.whole)
  else if isNegative x then Int64.minValue
  else Int64.maxValue

/-- The 64 bit integer as a floating point number, rounded to the
nearest one. -/
def ofInt64 (n : Int64) : Float :=
  Float.ofInt n.toInt

end MetricRelay.Number
