import MetricRelay.Number.Numeral

/-!
# Numerals computed in floating point

The numbers of payloads are computed in floating point: the leading
digits, as many as fit 64 bits, are made a floating point number, and that
is multiplied by a power of ten or divided by powers of ten. Every step
rounds, so `Numeral.scaled` need not be the number nearest to the numeral,
and it may be infinite where that is the greatest number of all.
-/

namespace MetricRelay.Number

/-- The number of digits at the end of `n` without which it fits 64
bits. -/
def surplus (n : Nat) : Nat :=
  if n < Nat.pow 2 64 then 0 else (digits (n / Nat.pow 2 64)).length

def powerOfTen (n : Nat) : Float :=
  Float.ofScientific 1 false n

/-- The exponent of the greatest power of ten that is in range. -/
def greatestPower : Nat := 308

/-- `x` over `10 ^ places`, in `steps` divisions by the greatest power and
a last one by what is left. -/
def divided : (steps : Nat) → (x : Float) → (places : Nat) → Float
  | 0, x, places => x / powerOfTen places
  | steps + 1, x, places =>
    if x == 0 then x
    else divided steps (x / powerOfTen greatestPower) (places - greatestPower)

/-- `x` times `10 ^ exponent`, for an `x` that is not negative. -/
def shifted (x : Float) (exponent : Int) : Float :=
  if exponent < 0 then
    let places := (-exponent).toNat
    divided ((places - 1) / greatestPower) x places
  else if x == 0 then x
  else if greatestPower < exponent then infinity
  else x * powerOfTen exponent.toNat

namespace Numeral

/-- The digits of the whole part that do not fit 64 bits. -/
def dropped (n : Numeral) : Nat :=
  surplus (n.mantissa / Nat.pow 10 n.places)

/-- The digits of the whole part that fit, with those of the fraction
behind them. -/
def kept (n : Numeral) : Nat :=
  n.mantissa / Nat.pow 10 n.places / Nat.pow 10 n.dropped * Nat.pow 10 n.places
    + n.mantissa % Nat.pow 10 n.places

/-- The digits that are read, as one number of 64 bits. -/
def significand (n : Numeral) : Nat :=
  n.kept / Nat.pow 10 (surplus n.kept)

/-- The power of ten behind the significand. Digits that were dropped count
as zeros. -/
def scale (n : Numeral) : Int :=
  n.exponent - n.places + n.dropped + surplus n.kept

/-- The floating point number that the numeral is read as, infinite where
that is out of range. -/
def scaled (n : Numeral) : Float :=
  let magnitude := shifted (Float.ofNat n.significand) n.scale
  if n.negative then -magnitude else magnitude

end Numeral

end MetricRelay.Number
