import MetricRelay.Proofs.Number.Digits
import MetricRelay.Text.Utf8
import MetricRelay.Wire.NumberToken

/-!
# Reading numbers byte by byte

`NumberToken.feedAll` feeds a number the bytes of a text. Each part of a
written number has one lemma on what it does to the number read so far:
a whole part (`read?_whole`), a fraction (`feedAll_fraction`) and an
exponent (`feedAll_power`).
-/

namespace MetricRelay.Wire

def bytes (cs : List Char) : List UInt8 := cs.flatMap Utf8.encodeChar

theorem bytes_append (cs ds : List Char) : bytes (cs ++ ds) = bytes cs ++ bytes ds :=
  List.flatMap_append

theorem bytes_cons (c : Char) (cs : List Char) : bytes (c :: cs) = Utf8.encodeChar c ++ bytes cs :=
  List.flatMap_cons

theorem encodeChar_ascii {c : Char} (h : c.toNat < 128) : Utf8.encodeChar c = [c.toUInt8] := by
  have hsize : c.utf8Size = 1 := by
    unfold Char.utf8Size
    rw [if_pos]
    exact UInt32.le_iff_toNat_le.mpr (Nat.le_of_lt_succ h)
  exact String.utf8EncodeChar_eq_singleton hsize

theorem bytes_cons_ascii {c : Char} (h : c.toNat < 128) (cs : List Char) :
    bytes (c :: cs) = c.toUInt8 :: bytes cs := by
  rw [bytes_cons, encodeChar_ascii h, List.singleton_append]

namespace NumberToken

open Number (digitsValue digits signedDigits)

/-- The number after more bytes, if it goes on for all of them. -/
def feedAll (t : NumberToken) : List UInt8 → Option NumberToken
  | [] => some t
  | b :: bs =>
    match t.feed b with
    | .goes t => feedAll t bs
    | .ends | .breaks => none

theorem feedAll_append (t : NumberToken) (bs cs : List UInt8) :
    t.feedAll (bs ++ cs) = (t.feedAll bs).bind fun t => t.feedAll cs := by
  induction bs generalizing t with
  | nil => rfl
  | cons b bs ih =>
    rw [List.cons_append, feedAll, feedAll]
    cases t.feed b with
    | goes t => exact ih t
    | ends => rfl
    | breaks => rfl

/-- The number that all bytes of a text form. -/
def read? : List UInt8 → Option NumberToken
  | [] => none
  | b :: bs => (start? b).bind fun t => t.feedAll bs

theorem read?_append {bs : List UInt8} (h : bs ≠ []) (cs : List UInt8) :
    read? (bs ++ cs) = (read? bs).bind fun t => t.feedAll cs := by
  cases bs with
  | nil => exact absurd rfl h
  | cons b bs =>
    rw [List.cons_append, read?, read?]
    cases start? b with
    | none => rfl
    | some t => exact feedAll_append t bs cs

/-! ## Digits -/

theorem toNat_bounds {c : Char} (h : c.isDigit) : 48 ≤ c.toNat ∧ c.toNat ≤ 57 := by
  unfold Char.isDigit at h
  rw [Bool.and_eq_true, decide_eq_true_eq, decide_eq_true_eq] at h
  exact ⟨UInt32.le_iff_toNat_le.mp h.1, UInt32.le_iff_toNat_le.mp h.2⟩

theorem toNat_toUInt8 {c : Char} (h : c.toNat < 128) : c.toUInt8.toNat = c.toNat := by
  show c.toNat % 2 ^ 8 = c.toNat
  omega

theorem digit?_of_isDigit {c : Char} (h : c.isDigit) :
    digit? c.toUInt8 = some (c.toNat - '0'.toNat) := by
  obtain ⟨hlow, hhigh⟩ := toNat_bounds h
  have hbyte := toNat_toUInt8 (c := c) (by omega)
  unfold digit?
  rw [if_pos, hbyte]
  · rfl
  · rw [UInt8.le_iff_toNat_le, UInt8.le_iff_toNat_le, hbyte]
    exact ⟨hlow, hhigh⟩

theorem bytes_cons_digit {c : Char} (h : c.isDigit) (cs : List Char) :
    bytes (c :: cs) = c.toUInt8 :: bytes cs :=
  bytes_cons_ascii (by have := toNat_bounds h; omega) cs

variable {t : NumberToken} {c : Char} {cs : List Char}

theorem feed_digit (t : NumberToken) (h : c.isDigit) :
    t.feed c.toUInt8 = t.takeDigit (c.toNat - '0'.toNat) := by
  rw [feed, digit?_of_isDigit h]

theorem feedAll_whole (ht : t.stage = .whole) (hcs : ∀ c ∈ cs, c.isDigit) :
    t.feedAll (bytes cs) = some { t with mantissa := digitsValue t.mantissa cs } := by
  induction cs generalizing t with
  | nil => rfl
  | cons c cs ih =>
    have hc := hcs c (List.mem_cons_self ..)
    rw [bytes_cons_digit hc, feedAll, feed_digit t hc, takeDigit, ht, Number.digitsValue_cons]
    exact ih rfl fun d hd => hcs d (List.mem_cons_of_mem c hd)

theorem feedAll_fraction_rest (ht : t.stage = .fraction) (hcs : ∀ c ∈ cs, c.isDigit) :
    t.feedAll (bytes cs) = some { t with
      mantissa := digitsValue t.mantissa cs, places := t.places + cs.length } := by
  induction cs generalizing t with
  | nil => rfl
  | cons c cs ih =>
    have hc := hcs c (List.mem_cons_self ..)
    rw [bytes_cons_digit hc, feedAll, feed_digit t hc, takeDigit, ht, Number.digitsValue_cons,
      List.length_cons, Nat.add_comm cs.length, ← Nat.add_assoc]
    exact ih rfl fun d hd => hcs d (List.mem_cons_of_mem c hd)

/-- The point and the digits of a fraction. -/
theorem feedAll_fraction (ht : t.stage = .zero ∨ t.stage = .whole) (hcs : ∀ c ∈ cs, c.isDigit)
    (hne : cs ≠ []) :
    t.feedAll (bytes ('.' :: cs)) = some { t with
      mantissa := digitsValue t.mantissa cs, places := t.places + cs.length, stage := .fraction } := by
  have hpoint : t.feed '.'.toUInt8 = .goes { t with stage := .point } := by
    rcases ht with ht | ht <;> rw [feed, show digit? '.'.toUInt8 = none from rfl] <;>
      simp only [takeOther, ht] <;> rfl
  rw [bytes_cons_ascii (by decide), feedAll, hpoint]
  cases cs with
  | nil => exact absurd rfl hne
  | cons c cs =>
    have hc := hcs c (List.mem_cons_self ..)
    have hrest := fun t ht => feedAll_fraction_rest (t := t) ht fun d hd =>
      hcs d (List.mem_cons_of_mem c hd)
    dsimp only
    rw [bytes_cons_digit hc, feedAll, feed_digit _ hc, takeDigit, Number.digitsValue_cons,
      List.length_cons, Nat.add_comm cs.length, ← Nat.add_assoc]
    exact hrest _ rfl

theorem feedAll_exponent_rest (ht : t.stage = .exponent) (hcs : ∀ c ∈ cs, c.isDigit) :
    t.feedAll (bytes cs) = some { t with power := digitsValue t.power cs } := by
  induction cs generalizing t with
  | nil => rfl
  | cons c cs ih =>
    have hc := hcs c (List.mem_cons_self ..)
    rw [bytes_cons_digit hc, feedAll, feed_digit t hc, takeDigit, ht, Number.digitsValue_cons]
    exact ih rfl fun d hd => hcs d (List.mem_cons_of_mem c hd)

theorem feedAll_exponent (ht : t.stage = .mark ∨ t.stage = .markSign)
    (hcs : ∀ c ∈ cs, c.isDigit) (hne : cs ≠ []) :
    t.feedAll (bytes cs) = some { t with
      power := digitsValue t.power cs, stage := .exponent } := by
  cases cs with
  | nil => exact absurd rfl hne
  | cons c cs =>
    have hc := hcs c (List.mem_cons_self ..)
    have hrest := fun t ht => feedAll_exponent_rest (t := t) ht fun d hd =>
      hcs d (List.mem_cons_of_mem c hd)
    have hdigit : t.takeDigit (c.toNat - '0'.toNat) = .goes { t with
        power := t.power * 10 + (c.toNat - '0'.toNat), stage := .exponent } := by
      rcases ht with ht | ht <;> rw [takeDigit, ht]
    rw [bytes_cons_digit hc, feedAll, feed_digit t hc, hdigit, Number.digitsValue_cons]
    exact hrest _ rfl

theorem feed_mark (ht : t.stage = .zero ∨ t.stage = .whole ∨ t.stage = .fraction)
    (capital : Bool) :
    t.feed (if capital then 'E' else 'e').toUInt8 = .goes { t with stage := .mark } := by
  obtain ⟨negative, mantissa, places, shrinks, power, stage⟩ := t
  rcases ht with rfl | rfl | rfl <;> cases capital <;> rfl

/-- The exponent of a number that has none yet. -/
theorem feedAll_power (ht : t.stage = .zero ∨ t.stage = .whole ∨ t.stage = .fraction)
    (hshrinks : t.shrinks = false) (hpower : t.power = 0) (plus : Bool) (n : Int) :
    t.feedAll (bytes ('e' :: (if plus && 0 ≤ n then ['+'] else []) ++ signedDigits n))
      = some { t with shrinks := n < 0, power := n.natAbs, stage := .exponent } := by
  have hmark : t.feed 'e'.toUInt8 = .goes { t with stage := .mark } := feed_mark ht false
  have hall : ∀ c ∈ digits n.natAbs, c.isDigit := fun _ => Number.isDigit_of_mem_digits
  have hdigits := fun t ht => feedAll_exponent (t := t) ht hall (Number.digits_ne_nil _)
  rw [List.cons_append, bytes_cons_ascii (by decide), feedAll, hmark]
  dsimp only
  unfold signedDigits
  by_cases hn : n < 0
  · have hminus : ({ t with stage := .mark } : NumberToken).feed '-'.toUInt8
        = .goes { t with shrinks := true, stage := .markSign } := rfl
    rw [if_pos hn, if_neg (by simp [hn]), List.nil_append, bytes_cons_ascii (by decide), feedAll,
      hminus]
    dsimp only
    rw [hdigits _ (Or.inr rfl)]
    dsimp only
    rw [hpower, Number.digitsValue_digits, decide_eq_true hn]
  · rw [if_neg hn, decide_eq_false hn]
    have hplus : ({ t with stage := .mark } : NumberToken).feed '+'.toUInt8
        = .goes { t with stage := .markSign } := rfl
    by_cases hp : plus && decide (0 ≤ n)
    · rw [if_pos hp, List.singleton_append, bytes_cons_ascii (by decide), feedAll, hplus]
      dsimp only
      rw [hdigits _ (Or.inr rfl)]
      dsimp only
      rw [hpower, hshrinks, Number.digitsValue_digits]
    · rw [if_neg hp, List.nil_append, hdigits _ (Or.inl rfl)]
      dsimp only
      rw [hpower, hshrinks, Number.digitsValue_digits]

/-! ## Whole parts -/

/-- A minus sign or nothing. -/
def minus (negative : Bool) : List Char := if negative then ['-'] else []

theorem read?_zero (negative : Bool) :
    read? (bytes (minus negative ++ ['0'])) = some ⟨negative, 0, 0, false, 0, .zero⟩ := by
  cases negative <;> rfl

/-- Digits that do not begin with a zero. -/
theorem read?_whole (negative : Bool) (hcs : ∀ d ∈ c :: cs, d.isDigit) (hc : c ≠ '0') :
    read? (bytes (minus negative ++ c :: cs))
      = some ⟨negative, digitsValue 0 (c :: cs), 0, false, 0, .whole⟩ := by
  have hdigit := hcs c (List.mem_cons_self ..)
  have hrest := fun t ht => feedAll_whole (t := t) ht fun d hd =>
    hcs d (List.mem_cons_of_mem c hd)
  have hpos : c.toNat - '0'.toNat ≠ 0 := by
    have hne : c.toNat ≠ '0'.toNat := fun h => hc (Char.toNat_inj.mp h)
    have hlow := (toNat_bounds hdigit).1
    have hzero : '0'.toNat = 48 := rfl
    omega
  rw [Number.digitsValue_cons, Nat.zero_mul, Nat.zero_add]
  cases negative with
  | true =>
    rw [minus, if_pos rfl, List.singleton_append, bytes_cons_ascii (by decide), read?,
      show start? '-'.toUInt8 = some ⟨true, 0, 0, false, 0, .sign⟩ from rfl, Option.bind_some,
      bytes_cons_digit hdigit, feedAll, feed_digit _ hdigit, takeDigit]
    dsimp only
    rw [if_neg hpos]
    exact hrest _ rfl
  | false =>
    have hstart : start? c.toUInt8 = some ⟨false, c.toNat - '0'.toNat, 0, false, 0, .whole⟩ := by
      have hbounds := toNat_bounds hdigit
      have hbyte := toNat_toUInt8 (c := c) (by omega)
      have hminus : c.toUInt8 ≠ 0x2D := fun h => by
        rw [h] at hbyte
        have : (0x2D : UInt8).toNat = 45 := rfl
        omega
      have hzero : c.toUInt8 ≠ 0x30 := fun h => by
        rw [h] at hbyte
        exact hpos (by rw [← hbyte]; rfl)
      rw [start?, if_neg hminus, if_neg hzero, digit?_of_isDigit hdigit]
      rfl
    rw [minus, if_neg Bool.false_ne_true, List.nil_append, bytes_cons_digit hdigit, read?, hstart,
      Option.bind_some]
    exact hrest _ rfl

end NumberToken

end MetricRelay.Wire
