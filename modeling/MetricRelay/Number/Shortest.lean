import MetricRelay.Number.Binary

/-!
# The shortest decimal that reads back

Of the decimals that lie nearer to a floating point number than to its
neighbours, `shortest` takes one with the fewest digits, of those the
nearest. All comparisons are exact, on natural numbers: a decimal and a
binary number are compared after their denominators are cleared. Where a
number of digits has a hit at all, one of the value's two neighbours on
the grid with that many digits is a hit, so only those two are tried.
-/

namespace MetricRelay.Number

/-- The number `digits · 10 ^ exponent`. -/
structure Decimal where
  digits : Nat
  exponent : Int
deriving Repr, DecidableEq

/-- Which of two decimals is taken that are equally near. -/
inductive Tie where
  /-- The one whose last digit is even. -/
  | toEven
  /-- The greater one. -/
  | up
deriving Repr, DecidableEq

namespace Decimal

/-- Compares `d` with `n · 2 ^ e`. -/
def compareBinary (d : Decimal) (n : Nat) (e : Int) : Ordering :=
  compare (d.digits * Nat.pow 10 d.exponent.toNat * Nat.pow 2 (-e).toNat)
    (n * Nat.pow 2 e.toNat * Nat.pow 10 (-d.exponent).toNat)

/-- `d` without zeros at its end, as far as `fuel` goes. -/
def dropZeros : (fuel : Nat) → Decimal → Decimal
  | 0, d => d
  | fuel + 1, d =>
    if d.digits % 10 = 0 ∧ d.digits ≠ 0 then
      dropZeros fuel ⟨d.digits / 10, d.exponent + 1⟩
    else d

end Decimal

namespace Binary

/-- The absolute value as a numerator and a denominator. -/
def ratio (b : Binary) : Nat × Nat :=
  (b.mantissa * Nat.pow 2 b.exponent.toNat, Nat.pow 2 (-b.exponent).toNat)

/-- The absolute value of `d` is read as `b`: it lies between the middles
to the neighbours of `b`, on a middle only where `b` has an even
mantissa. -/
def readsBack (b : Binary) (d : Decimal) : Bool :=
  let below := 4 * b.mantissa - (if b.nearBelow then 1 else 2)
  let above := 4 * b.mantissa + 2
  let low := d.compareBinary below (b.exponent - 2)
  let high := d.compareBinary above (b.exponent - 2)
  if b.mantissa % 2 = 0 then low != .lt && high != .gt
  else low == .gt && high == .lt

/-- The place of the first significant digit of `num / den`: the greatest
`e` with `10 ^ e ≤ num / den`. -/
def leadingPlace (num den : Nat) : Int :=
  if den ≤ num then ((Nat.toDigits 10 (num / den)).length : Int) - 1
  else -((Nat.toDigits 10 ((den - 1) / num)).length : Int)

/-- The greatest multiple of `10 ^ place` that is at most `num / den`. -/
def gridBelow (num den : Nat) (place : Int) : Nat :=
  num * Nat.pow 10 (-place).toNat / (den * Nat.pow 10 place.toNat)

/-- The nearer of the neighbours `n` and `n + 1` of `b` on the grid of
`10 ^ place`. -/
def nearer (tie : Tie) (b : Binary) (n : Nat) (place : Int) : Decimal :=
  -- `b` is compared with the middle between the neighbours
  match (Decimal.mk (2 * n + 1) place).compareBinary (2 * b.mantissa) b.exponent with
  | .gt => ⟨n, place⟩
  | .lt => ⟨n + 1, place⟩
  | .eq =>
    match tie with
    | .toEven => ⟨n + n % 2, place⟩
    | .up => ⟨n + 1, place⟩

/-- The decimal with at most `count` digits that reads back as `b` and is
nearest to it, if there is one. -/
def withDigits? (tie : Tie) (b : Binary) (count : Nat) : Option Decimal :=
  let (num, den) := b.ratio
  let place := leadingPlace num den - (count - 1 : Nat)
  let n := gridBelow num den place
  let lower := b.readsBack ⟨n, place⟩
  let upper := b.readsBack ⟨n + 1, place⟩
  if lower && upper then some (b.nearer tie n place)
  else if lower then some ⟨n, place⟩
  else if upper then some ⟨n + 1, place⟩
  else none

/-- Seventeen digits always suffice. -/
def enoughDigits : Nat := 17

/-- The shortest decimal for the absolute value of `b`, of several the
nearest, without zeros at its end. -/
def shortest (tie : Tie) (b : Binary) : Decimal :=
  if b.mantissa = 0 then ⟨0, 0⟩
  else
    match (List.range enoughDigits).findSome? fun i => b.withDigits? tie (i + 1) with
    | some d => d.dropZeros enoughDigits
    | none => ⟨b.whole, 0⟩

end Binary

end MetricRelay.Number
