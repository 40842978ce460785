import MetricRelay.Number.Layout
import Mathlib

/-!
# The parts of a finite number and its bits

A finite floating point number and its exact value determine each other:
`toFloat_ofFloat` puts the parts read off a finite number together again,
`ofFloat_toFloat` reads the parts of a canonical value back. Between the
two stands the word of bits, whose fields `unpack_eq_decoded` names.
`Canonical` says which values a finite number has; arithmetic on numbers
is carried through `unpack_toFloat`, so that no later lemma looks at a
bit.
-/

namespace MetricRelay.Number

open Float.Model

/-! ## The fields of a word -/

/-- The bits of a number. -/
abbrev Word := BitVec Format.binary64.numBits

theorem toNat_unpackMantissa (v : Word) :
    (UnpackedFloat.unpackMantissa v).toNat = v.toNat % 2 ^ 52 := by
  simp [UnpackedFloat.unpackMantissa]

theorem toNat_unpackExponent (v : Word) :
    (UnpackedFloat.unpackExponent v).toNat = v.toNat / 2 ^ 52 % 2 ^ 11 := by
  simp [UnpackedFloat.unpackExponent, Nat.shiftRight_eq_div_pow]

theorem toNat_unpackSign (v : Word) :
    (UnpackedFloat.unpackSign v).toNat = v.toNat / 2 ^ 63 := by
  have h : v.toNat < 2 ^ 64 := v.isLt
  simp [UnpackedFloat.unpackSign, Nat.shiftRight_eq_div_pow]
  omega

theorem toNat_implicit (v : BitVec 52) : (1#1 ++ v).toNat = 2 ^ 52 + v.toNat := by
  rw [BitVec.toNat_append, ← Nat.shiftLeft_add_eq_or_of_lt v.isLt]
  simp [Nat.shiftLeft_eq]

/-- The sign of a number that has a minus or has none. -/
def signOf (negative : Bool) : UnpackedFloat.Sign :=
  if negative then .negative else .positive

theorem ofBitVec_unpackSign (v : Word) :
    UnpackedFloat.Sign.ofBitVec (UnpackedFloat.unpackSign v) = signOf (v.toNat / 2 ^ 63 = 1) := by
  have h : v.toNat < 2 ^ 64 := v.isLt
  have hs := toNat_unpackSign v
  unfold UnpackedFloat.Sign.ofBitVec signOf
  by_cases h1 : v.toNat / 2 ^ 63 = 1
  · have hne : UnpackedFloat.unpackSign v ≠ 0#1 := fun h0 => by
      rw [h0, h1] at hs
      cases hs
    rw [if_neg hne, if_pos (decide_eq_true h1)]
  · have heq : UnpackedFloat.unpackSign v = 0#1 := by
      apply BitVec.eq_of_toNat_eq
      rw [hs]
      show v.toNat / 2 ^ 63 = 0
      omega
    rw [if_pos heq, decide_eq_false h1]
    rfl

theorem finite_congr {s t : UnpackedFloat.Sign} {m n : Nat} {e f : Int} (hm : 0 < m)
    (hst : s = t) (hmn : m = n) (hef : e = f) :
    UnpackedFloat.finite s m e hm = .finite t n f (hmn ▸ hm) := by
  subst hst hmn hef
  rfl

/-- What a word with the fields `negative`, `scale` and `fraction` is. -/
def decoded (negative : Bool) (scale fraction : Nat) : UnpackedFloat :=
  if scale = 2047 then
    if fraction = 0 then .infinity (signOf negative) else .notANumber
  else if scale = 0 then
    if h : fraction = 0 then .zero (signOf negative)
    else .finite (signOf negative) fraction (-1074) (Nat.pos_of_ne_zero h)
  else .finite (signOf negative) (2 ^ 52 + fraction) (scale - 1075) (by positivity)

theorem unpack_eq_decoded (v : Word) :
    UnpackedFloat.unpack Format.binary64 v
      = decoded (v.toNat / 2 ^ 63 = 1) (v.toNat / 2 ^ 52 % 2 ^ 11) (v.toNat % 2 ^ 52) := by
  have hm := toNat_unpackMantissa v
  have he := toNat_unpackExponent v
  have hs := ofBitVec_unpackSign v
  have hones : UnpackedFloat.unpackExponent v = -1#_ ↔ v.toNat / 2 ^ 52 % 2 ^ 11 = 2047 := by
    rw [← BitVec.toNat_inj, he]; rfl
  have hzero : UnpackedFloat.unpackExponent v = 0#_ ↔ v.toNat / 2 ^ 52 % 2 ^ 11 = 0 := by
    rw [← BitVec.toNat_inj, he]; rfl
  have hnone : UnpackedFloat.unpackMantissa v = 0#_ ↔ v.toNat % 2 ^ 52 = 0 := by
    rw [← BitVec.toNat_inj, hm]; rfl
  unfold UnpackedFloat.unpack decoded
  dsimp only
  rw [hs]
  by_cases h1 : v.toNat / 2 ^ 52 % 2 ^ 11 = 2047
  · rw [if_pos (hones.mpr h1), if_pos h1]
    by_cases h2 : v.toNat % 2 ^ 52 = 0
    · rw [if_pos (hnone.mpr h2), if_pos h2]
    · rw [if_neg (mt hnone.mp h2), if_neg h2]
  rw [if_neg (mt hones.mp h1), if_neg h1]
  by_cases h2 : v.toNat / 2 ^ 52 % 2 ^ 11 = 0
  · rw [if_pos (hzero.mpr h2), if_pos h2]
    by_cases h3 : v.toNat % 2 ^ 52 = 0
    · rw [dif_pos (hnone.mpr h3), dif_pos h3]
    · rw [dif_neg (mt hnone.mp h3), dif_neg h3]
      refine finite_congr _ rfl hm ?_
      rw [he, h2]
      rfl
  · rw [if_neg (mt hzero.mp h2), if_neg h2]
    refine finite_congr _ rfl (by rw [toNat_implicit, hm]) ?_
    rw [he]
    simp [Format.exponentBias]

/-! ## Values that a finite number has -/

namespace Binary

/-- The number as the floating point model has it. -/
def unpacked (b : Binary) : UnpackedFloat :=
  if h : b.mantissa = 0 then .zero (signOf b.negative)
  else .finite (signOf b.negative) b.mantissa b.exponent (Nat.pos_of_ne_zero h)

theorem unpacked_of_zero {b : Binary} (h : b.mantissa = 0) :
    b.unpacked = .zero (signOf b.negative) :=
  dif_pos h

theorem unpacked_of_ne_zero {b : Binary} (h : b.mantissa ≠ 0) :
    b.unpacked = .finite (signOf b.negative) b.mantissa b.exponent (Nat.pos_of_ne_zero h) :=
  dif_neg h

/-- The values of finite numbers, zero among them. -/
structure Canonical (b : Binary) : Prop where
  lt : b.mantissa < 2 ^ 53
  least : leastExponent ≤ b.exponent
  greatest : b.exponent ≤ 971
  full : 2 ^ fractionBits ≤ b.mantissa ∨ b.exponent = leastExponent

/-- The bits of a finite number. -/
def bits (b : Binary) : Nat :=
  b.negative.toNat * 2 ^ 63 + (b.exponent - leastExponent).toNat * 2 ^ 52 + b.mantissa

/-- The floating point number with these parts. -/
def toFloat (b : Binary) : Float := .ofModel (.pack b.unpacked)

end Binary

/-! ## From a number to its parts -/

theorem scale_ne_of_isFinite {x : Float} (h : x.isFinite) :
    x.toBits.toNat / 2 ^ 52 % 2 ^ 11 ≠ 2047 := by
  intro hs
  have hf : (UnpackedFloat.unpack Format.binary64 x.toModel.toBits.toBitVec).isFinite = true := h
  rw [unpack_eq_decoded] at hf
  have hs' : x.toModel.toBits.toBitVec.toNat / 2 ^ 52 % 2 ^ 11 = 2047 := hs
  unfold decoded at hf
  rw [if_pos hs'] at hf
  split at hf <;> cases hf

/-- The parts of a number below the normal range. -/
theorem ofFloat_of_scale_zero {x : Float} (h : x.toBits.toNat / 2 ^ 52 % 2 ^ 11 = 0) :
    Binary.ofFloat x = ⟨x.toBits.toNat / 2 ^ 63 = 1, x.toBits.toNat % 2 ^ 52, -1074⟩ := by
  have h' : x.toBits.toNat / Nat.pow 2 52 % Nat.pow 2 11 = 0 := h
  unfold Binary.ofFloat
  dsimp only [Binary.fractionBits, Binary.leastExponent]
  rw [if_pos h', h']
  rfl

/-- The parts of a number in the normal range. -/
theorem ofFloat_of_scale_ne_zero {x : Float} (h : x.toBits.toNat / 2 ^ 52 % 2 ^ 11 ≠ 0) :
    Binary.ofFloat x = ⟨x.toBits.toNat / 2 ^ 63 = 1, 2 ^ 52 + x.toBits.toNat % 2 ^ 52,
      (x.toBits.toNat / 2 ^ 52 % 2 ^ 11 : Nat) - 1075⟩ := by
  have h' : x.toBits.toNat / Nat.pow 2 52 % Nat.pow 2 11 ≠ 0 := h
  unfold Binary.ofFloat
  dsimp only [Binary.fractionBits, Binary.leastExponent]
  rw [if_neg h', Nat.add_comm]
  simp only [Nat.pow_eq, Binary.mk.injEq, true_and]
  omega

theorem canonical_ofFloat {x : Float} (h : x.isFinite) : (Binary.ofFloat x).Canonical := by
  have hs := scale_ne_of_isFinite h
  have hlt : x.toBits.toNat / 2 ^ 52 % 2 ^ 11 < 2 ^ 11 := Nat.mod_lt _ (by decide)
  have hfr : x.toBits.toNat % 2 ^ 52 < 2 ^ 52 := Nat.mod_lt _ (by decide)
  by_cases h0 : x.toBits.toNat / 2 ^ 52 % 2 ^ 11 = 0
  · rw [ofFloat_of_scale_zero h0]
    exact ⟨by dsimp only; omega, Int.le_refl _, by dsimp only; omega, Or.inr rfl⟩
  · rw [ofFloat_of_scale_ne_zero h0]
    generalize x.toBits.toNat / 2 ^ 52 % 2 ^ 11 = scale at *
    refine ⟨?_, ?_, ?_, Or.inl (Nat.le_add_right _ _)⟩
    · dsimp only; omega
    · dsimp only [Binary.leastExponent]; omega
    · dsimp only; omega

theorem unpack_of_isFinite {x : Float} (h : x.isFinite) :
    x.toModel.unpack = (Binary.ofFloat x).unpacked := by
  have hs := scale_ne_of_isFinite h
  refine (unpack_eq_decoded _).trans ?_
  show decoded (x.toBits.toNat / 2 ^ 63 = 1) (x.toBits.toNat / 2 ^ 52 % 2 ^ 11)
    (x.toBits.toNat % 2 ^ 52) = _
  unfold decoded
  rw [if_neg hs]
  by_cases h0 : x.toBits.toNat / 2 ^ 52 % 2 ^ 11 = 0
  · rw [if_pos h0, ofFloat_of_scale_zero h0]
    rfl
  · rw [if_neg h0, ofFloat_of_scale_ne_zero h0]
    rw [Binary.unpacked_of_ne_zero (Nat.ne_of_gt (Nat.add_pos_left (Nat.two_pow_pos 52) _))]

theorem toNat_negative {n : Nat} (h : n < 2 ^ 64) :
    (decide (n / 2 ^ 63 = 1)).toNat = n / 2 ^ 63 := by
  by_cases h1 : n / 2 ^ 63 = 1
  · rw [decide_eq_true h1, h1]
    rfl
  · rw [decide_eq_false h1]
    show 0 = _
    omega

theorem bits_ofFloat {x : Float} (h : x.isFinite) :
    (Binary.ofFloat x).bits = x.toBits.toNat := by
  have hs := scale_ne_of_isFinite h
  have hlt : x.toBits.toNat < 2 ^ 64 := x.toModel.toBits.toBitVec.isLt
  by_cases h0 : x.toBits.toNat / 2 ^ 52 % 2 ^ 11 = 0
  · rw [ofFloat_of_scale_zero h0, Binary.bits]
    dsimp only [Binary.leastExponent]
    rw [toNat_negative hlt]
    omega
  · rw [ofFloat_of_scale_ne_zero h0, Binary.bits]
    dsimp only [Binary.leastExponent]
    rw [toNat_negative hlt]
    omega

/-! ## From the parts to the number -/

theorem toNat_packComponents (s : UnpackedFloat.Sign) (e : BitVec 11) (m : BitVec 52) :
    (UnpackedFloat.packComponents Format.binary64 s e m).toNat
      = s.toBitVec.toNat * 2 ^ 63 + e.toNat * 2 ^ 52 + m.toNat := by
  unfold UnpackedFloat.packComponents
  rw [BitVec.toNat_append, BitVec.toNat_append, ← Nat.shiftLeft_add_eq_or_of_lt m.isLt,
    ← Nat.shiftLeft_add_eq_or_of_lt e.isLt, Nat.shiftLeft_eq, Nat.shiftLeft_eq]
  ring

theorem toNat_signOf (negative : Bool) :
    (signOf negative).toBitVec.toNat = negative.toNat := by
  cases negative <;> rfl

theorem toNat_pack {b : Binary} (hb : b.Canonical) :
    (UnpackedFloat.pack Format.binary64 b.unpacked).toNat = b.bits := by
  obtain ⟨hlt, hleast, hgreatest, hfull⟩ := hb
  unfold Binary.leastExponent at *
  unfold Binary.fractionBits at *
  unfold Binary.unpacked Binary.bits
  by_cases h0 : b.mantissa = 0
  · rw [dif_pos h0]
    simp only [UnpackedFloat.pack, UnpackedFloat.packedZero]
    rw [toNat_packComponents, toNat_signOf]
    have he : b.exponent = -1074 := by omega
    simp [h0, he, Binary.leastExponent]
  · rw [dif_neg h0]
    simp only [UnpackedFloat.pack]
    have hbias : b.exponent + (Format.exponentBias Format.binary64 : Int)
        + (Format.mantissaBitsWithoutImplicit Format.binary64 : Int) = b.exponent + 1075 := by
      show b.exponent + 1023 + 52 = _
      omega
    rw [hbias, if_neg (by show ¬ 2 ^ 11 ≤ _; omega)]
    by_cases hn : b.mantissa < 2 ^ 52
    · have hlog : b.mantissa.log2 < 52 := (Nat.log2_lt h0).mpr hn
      have hm : b.mantissa % 2 ^ 52 = b.mantissa := Nat.mod_eq_of_lt hn
      rw [if_neg (by show ¬ b.mantissa.log2 + 1 = 53; omega), toNat_packComponents, toNat_signOf]
      show _ + 0 * 2 ^ 52 + b.mantissa % 2 ^ 52 = _
      rw [hm]
      simp only [Binary.leastExponent]
      omega
    · have hlog : b.mantissa.log2 = 52 := (Nat.log2_eq_iff h0).mpr (by omega)
      rw [if_pos (by show b.mantissa.log2 + 1 = 53; omega), toNat_packComponents, toNat_signOf]
      have he : (b.exponent + 1075).toNat % 2 ^ 11 = (b.exponent + 1075).toNat :=
        Nat.mod_eq_of_lt (by omega)
      show _ + (b.exponent + 1075).toNat % 2 ^ 11 * 2 ^ 52 + b.mantissa % 2 ^ 52 = _
      rw [he]
      simp only [Binary.leastExponent]
      omega

theorem toNat_toBits_toFloat {b : Binary} (hb : b.Canonical) :
    b.toFloat.toBits.toNat = b.bits :=
  toNat_pack hb

theorem decoded_bits {b : Binary} (hb : b.Canonical) :
    decoded b.negative (b.bits / 2 ^ 52 % 2 ^ 11) (b.bits % 2 ^ 52) = b.unpacked := by
  obtain ⟨hlt, hleast, hgreatest, hfull⟩ := hb
  unfold Binary.leastExponent at *
  unfold Binary.fractionBits at *
  by_cases hn : b.mantissa < 2 ^ 52
  · have hscale : b.bits / 2 ^ 52 % 2 ^ 11 = 0 := by
      unfold Binary.bits Binary.leastExponent
      omega
    have hfraction : b.bits % 2 ^ 52 = b.mantissa := by
      unfold Binary.bits
      omega
    rw [hscale, hfraction]
    unfold decoded Binary.unpacked
    rw [if_neg (by decide), if_pos rfl]
    have he : b.exponent = -1074 := by omega
    simp only [he]
  · obtain ⟨fraction, hfr⟩ : ∃ fraction, b.mantissa = 2 ^ 52 + fraction :=
      ⟨b.mantissa - 2 ^ 52, by omega⟩
    have hscale : b.bits / 2 ^ 52 % 2 ^ 11 = (b.exponent + 1075).toNat := by
      unfold Binary.bits Binary.leastExponent
      omega
    have hfraction : b.bits % 2 ^ 52 = fraction := by
      unfold Binary.bits
      omega
    rw [hscale, hfraction, Binary.unpacked_of_ne_zero (by omega)]
    unfold decoded
    rw [if_neg (by omega), if_neg (by omega)]
    exact finite_congr _ rfl hfr.symm (by omega)

theorem unpack_toFloat {b : Binary} (hb : b.Canonical) :
    b.toFloat.toModel.unpack = b.unpacked := by
  have hbits : b.toFloat.toModel.toBits.toBitVec.toNat = b.bits := toNat_pack hb
  refine (unpack_eq_decoded _).trans ?_
  rw [hbits, ← decoded_bits hb]
  have hneg : b.negative.toNat < 2 := Bool.toNat_lt _
  have hdiv : b.bits / 2 ^ 63 = b.negative.toNat := by
    obtain ⟨hlt, hleast, hgreatest, -⟩ := hb
    unfold Binary.leastExponent at *
    unfold Binary.bits Binary.leastExponent
    omega
  rw [hdiv]
  cases b.negative <;> rfl

theorem toFloat_ofFloat {x : Float} (h : x.isFinite) : (Binary.ofFloat x).toFloat = x := by
  have hbits := (toNat_toBits_toFloat (canonical_ofFloat h)).trans (bits_ofFloat h)
  have hb : (Binary.ofFloat x).toFloat.toBits = x.toBits := UInt64.toNat_inj.mp hbits
  cases hx : x with
  | ofModel a =>
    rw [hx] at hb
    generalize (Binary.ofFloat (Float.ofModel a)).toFloat = y at hb
    obtain ⟨⟨c, hc⟩⟩ := y
    obtain ⟨d, hd⟩ := a
    obtain rfl : c = d := hb
    rfl

theorem signOf_injective : Function.Injective signOf := by
  intro a b h
  cases a <;> cases b <;> first | rfl | cases h

theorem unpacked_injective {b c : Binary} (hb : b.Canonical) (hc : c.Canonical)
    (h : b.unpacked = c.unpacked) : b = c := by
  have hzero : ∀ {a : Binary}, a.Canonical → a.mantissa = 0 → a.exponent = Binary.leastExponent :=
    fun ha h0 => ha.full.resolve_left (by rw [h0]; decide)
  obtain ⟨bn, bm, be⟩ := b
  obtain ⟨cn, cm, ce⟩ := c
  unfold Binary.unpacked at h
  by_cases hb0 : bm = 0 <;> by_cases hc0 : cm = 0
  · rw [dif_pos hb0, dif_pos hc0] at h
    obtain rfl := signOf_injective (UnpackedFloat.zero.inj h)
    obtain rfl : be = ce := (hzero hb hb0).trans (hzero hc hc0).symm
    rw [hb0, hc0]
  · rw [dif_pos hb0, dif_neg hc0] at h
    cases h
  · rw [dif_neg hb0, dif_pos hc0] at h
    cases h
  · rw [dif_neg hb0, dif_neg hc0] at h
    obtain ⟨hs, hm, he⟩ := UnpackedFloat.finite.inj h
    obtain rfl : bn = cn := signOf_injective hs
    obtain rfl : bm = cm := hm
    obtain rfl : be = ce := he
    rfl

theorem isFinite_toFloat {b : Binary} (hb : b.Canonical) : b.toFloat.isFinite := by
  show b.toFloat.toModel.unpack.isFinite = true
  rw [unpack_toFloat hb]
  unfold Binary.unpacked
  split <;> rfl

theorem isNaN_of_isFinite {x : Float} (h : x.isFinite) : x.isNaN = false := by
  show x.toModel.unpack.isNaN = false
  rw [unpack_of_isFinite h]
  unfold Binary.unpacked
  split <;> rfl

theorem ofFloat_toFloat {b : Binary} (hb : b.Canonical) : Binary.ofFloat b.toFloat = b := by
  have hf := isFinite_toFloat hb
  refine unpacked_injective (canonical_ofFloat hf) hb ?_
  rw [← unpack_of_isFinite hf, unpack_toFloat hb]

theorem isNegative_eq (x : Float) : isNegative x = (Binary.ofFloat x).negative := rfl

/-- The number with the other sign. -/
def Binary.opposite (b : Binary) : Binary := { b with negative := !b.negative }

theorem neg_toFloat {b : Binary} (hb : b.Canonical) : -b.toFloat = b.opposite.toFloat := by
  show Float.ofModel (.pack b.toFloat.toModel.unpack.neg) = _
  rw [unpack_toFloat hb]
  have hu : b.unpacked.neg = b.opposite.unpacked := by
    obtain ⟨n, m, e⟩ := b
    unfold Binary.unpacked Binary.opposite
    by_cases h0 : m = 0
    · rw [dif_pos h0, dif_pos h0]
      cases n <;> rfl
    · rw [dif_neg h0, dif_neg h0]
      cases n <;> rfl
  rw [hu]
  rfl

end MetricRelay.Number
