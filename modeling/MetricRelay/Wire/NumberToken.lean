import MetricRelay.Number.Numeral

/-!
# Numbers, byte by byte

A `NumberToken` is a number of which some bytes have been read. A number
has no end of its own: it ends before the first byte that cannot belong
to it, and `complete` says whether it may.
-/

namespace MetricRelay.Wire

/-- What the last byte of a number was. -/
inductive NumberStage where
  | sign
  /-- A zero at the beginning, which no digit may follow. -/
  | zero
  | whole
  | point
  | fraction
  /-- The letter before the exponent. -/
  | mark
  | markSign
  | exponent
deriving Repr, DecidableEq

/-- A number of which some bytes have been read. -/
structure NumberToken where
  /-- A minus sign was read. -/
  negative : Bool
  /-- All digits before the exponent, read as one number. -/
  mantissa : Nat
  /-- The number of digits behind the point. -/
  places : Nat
  /-- A minus sign of the exponent was read. -/
  shrinks : Bool
  /-- The digits of the exponent, read as one number. -/
  power : Nat
  stage : NumberStage
deriving Repr, DecidableEq

/-- What a byte does to a number. -/
inductive NumberStep where
  | goes (token : NumberToken)
  /-- The number has ended before this byte. -/
  | ends
  /-- No number goes on with this byte or ends here. -/
  | breaks

namespace NumberToken

def digit? (b : UInt8) : Option Nat :=
  if 0x30 ≤ b ∧ b ≤ 0x39 then some (b.toNat - 0x30) else none

/-- The number that a byte begins. -/
def start? (b : UInt8) : Option NumberToken :=
  if b = 0x2D then some ⟨true, 0, 0, false, 0, .sign⟩
  else if b = 0x30 then some ⟨false, 0, 0, false, 0, .zero⟩
  else (digit? b).map fun d => ⟨false, d, 0, false, 0, .whole⟩

/-- The number may end here. -/
def complete (t : NumberToken) : Bool :=
  match t.stage with
  | .zero | .whole | .fraction | .exponent => true
  | .sign | .point | .mark | .markSign => false

/-- The number with one more digit. -/
def takeDigit (t : NumberToken) (d : Nat) : NumberStep :=
  match t.stage with
  | .sign => .goes { t with mantissa := d, stage := if d = 0 then .zero else .whole }
  | .zero => .breaks
  | .whole => .goes { t with mantissa := t.mantissa * 10 + d }
  | .point | .fraction =>
    .goes { t with
      mantissa := t.mantissa * 10 + d, places := t.places + 1, stage := .fraction }
  | .mark | .markSign | .exponent =>
    .goes { t with power := t.power * 10 + d, stage := .exponent }

/-- The number before a byte that is no digit. -/
def takeOther (t : NumberToken) (b : UInt8) : NumberStep :=
  match t.stage with
  | .zero | .whole =>
    if b = 0x2E then .goes { t with stage := .point }
    else if b = 0x65 ∨ b = 0x45 then .goes { t with stage := .mark }
    else .ends
  | .fraction =>
    if b = 0x65 ∨ b = 0x45 then .goes { t with stage := .mark } else .ends
  | .mark =>
    if b = 0x2B then .goes { t with stage := .markSign }
    else if b = 0x2D then .goes { t with shrinks := true, stage := .markSign }
    else .breaks
  | .exponent => .ends
  | .sign | .point | .markSign => .breaks

def feed (t : NumberToken) (b : UInt8) : NumberStep :=
  match digit? b with
  | some d => t.takeDigit d
  | none => t.takeOther b

/-- What the digits say. -/
def numeral (t : NumberToken) : Number.Numeral :=
  ⟨t.negative, t.mantissa, t.places, if t.shrinks then -(t.power : Int) else t.power⟩

/-- The number, if it was written as an integer; `-0` was not. -/
def integer? (t : NumberToken) : Option Int :=
  match t.stage with
  | .zero | .whole =>
    if t.negative then if t.mantissa = 0 then none else some (-(t.mantissa : Int))
    else some t.mantissa
  | _ => none

end NumberToken

end MetricRelay.Wire
