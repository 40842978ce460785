import MetricRelay.Proofs.Wire.Grammar
import MetricRelay.Proofs.Wire.NumberText
import MetricRelay.Proofs.Wire.Texts

/-!
# Tokens as they are spelled

What texts and numbers of the grammar do to a token that is fed their
bytes. A text that is skipped comes through every glyph unchanged
(`feedAll_skipped`); one that is read collects the bytes that the glyph
stands for (`feedAll_plain_glyph`, `feedAll_escape`, `feedAll_code`,
`feedAll_surrogates`), or breaks at one half of a surrogate pair. A
number becomes a complete token that says what the literal says
(`exists_token`).
-/

namespace MetricRelay.Wire

namespace TextToken

/-! ## Glyphs -/

theorem hexValue?_byte (h : HexDigit) : hexValue? h.byte = some h.value.val := by
  obtain ⟨value, upper⟩ := h
  revert value upper
  decide

theorem codeOf?_digits (c : Code) :
    codeOf? [c.fourth.byte, c.third.byte, c.second.byte, c.first.byte] = some c.value := by
  simp [codeOf?, hexValue?_byte, Code.value]

variable {strict : Bool} {content : List UInt8}

/-- A code up to its last digit. -/
theorem feedAll_digits (strict : Bool) (content : List UInt8) (c : Code) :
    (⟨strict, content, .plain⟩ : TextToken).feedAll
        [0x5C, 0x75, c.first.byte, c.second.byte, c.third.byte]
      = some ⟨strict, content, .code none [c.third.byte, c.second.byte, c.first.byte]⟩ := rfl

/-- The second half of a surrogate pair up to its last digit. -/
theorem feedAll_pairDigits (content : List UInt8) (high : Nat) (c : Code) :
    (⟨true, content, .pair high⟩ : TextToken).feedAll
        [0x5C, 0x75, c.first.byte, c.second.byte, c.third.byte]
      = some ⟨true, content, .code (some high) [c.third.byte, c.second.byte, c.first.byte]⟩ := rfl

theorem feed_lastDigit (t : TextToken) (high : Option Nat) (c : Code)
    (ht : t.stage = .code high [c.third.byte, c.second.byte, c.first.byte]) :
    t.feed c.fourth.byte = (t.takeCode high c.value).map .goes := by
  simp only [feed, ht, codeOf?_digits]
  rfl

theorem Code.bytes_eq (c : Code) :
    (Glyph.code c).bytes
      = [0x5C, 0x75, c.first.byte, c.second.byte, c.third.byte] ++ [c.fourth.byte] := rfl

theorem feedAll_lastDigit {t t' : TextToken} {high : Option Nat} {c : Code}
    (ht : t.stage = .code high [c.third.byte, c.second.byte, c.first.byte])
    (h : t.takeCode high c.value = .ok t') : t.feedAll [c.fourth.byte] = some t' := by
  rw [feedAll, feed_lastDigit t high c ht, h]
  rfl

theorem letter_ne (e : Escape) : e.letter ≠ 0x75 := by
  cases e <;> decide

/-- A text that is skipped is none the wiser behind a glyph. -/
theorem feedAll_skipped (g : Glyph) : (start false).feedAll g.bytes = some (start false) := by
  cases g with
  | plain b h =>
    obtain ⟨hcontrol, hquote, hbackslash⟩ := h
    have hfeed : (start false).feed b = .ok (.goes (start false)) := by
      simp [feed, start, hquote, hbackslash, hcontrol]
    rw [Glyph.bytes, feedAll, hfeed]
    rfl
  | escape e => cases e <;> rfl
  | code c =>
    rw [Code.bytes_eq, feedAll_append, start, feedAll_digits, Option.bind_some]
    exact feedAll_lastDigit rfl rfl

theorem feedAll_plain_glyph {b : UInt8} (h : 0x20 ≤ b ∧ b ≠ 0x22 ∧ b ≠ 0x5C)
    (content : List UInt8) :
    (holding content).feedAll (Glyph.plain b h).bytes = some (holding (b :: content)) := by
  obtain ⟨hcontrol, hquote, hbackslash⟩ := h
  refine feedAll_plain content fun d hd => ?_
  obtain rfl := List.mem_singleton.mp hd
  exact ⟨hquote, hbackslash, UInt8.not_lt.mpr hcontrol⟩

theorem feedAll_escape (e : Escape) (content : List UInt8) :
    (holding content).feedAll (Glyph.escape e).bytes = some (holding (e.meaning :: content)) := by
  cases e <;> rfl

theorem takeCode_pair {t : TextToken} (ht : t.strict = true) (high : Nat) {low : Nat}
    (hlow : isLow low = true) :
    t.takeCode (some high) low
      = .ok (t.push (0x10000 + (high - 0xD800) * 0x400 + (low - 0xDC00))) := by
  simp [takeCode, ht, hlow]

theorem takeCode_loneHigh {t : TextToken} (ht : t.strict = true) (high : Nat) {low : Nat}
    (hlow : ¬ isLow low = true) : t.takeCode (some high) low = .error .malformed := by
  simp [takeCode, ht, hlow]

theorem takeCode_loneLow {t : TextToken} (ht : t.strict = true) {code : Nat}
    (hlow : isLow code = true) : t.takeCode none code = .error .malformed := by
  simp [takeCode, ht, hlow]

theorem takeCode_high {t : TextToken} (ht : t.strict = true) {code : Nat}
    (hlow : ¬ isLow code = true) (hhigh : isHigh code = true) :
    t.takeCode none code = .ok { t with stage := .pair code } := by
  simp [takeCode, ht, hlow, hhigh]

theorem takeCode_single {t : TextToken} (ht : t.strict = true) {code : Nat}
    (hlow : ¬ isLow code = true) (hhigh : ¬ isHigh code = true) :
    t.takeCode none code = .ok (t.push code) := by
  simp [takeCode, ht, hlow, hhigh]

theorem feedAll_code {c : Code} (hlow : ¬ isLow c.value = true) (hhigh : ¬ isHigh c.value = true)
    (content : List UInt8) :
    (holding content).feedAll (Glyph.code c).bytes
      = some (holding ((Utf8.encodeChar (Char.ofNat c.value)).reverse ++ content)) := by
  rw [Code.bytes_eq, feedAll_append, holding, feedAll_digits, Option.bind_some]
  exact feedAll_lastDigit rfl (takeCode_single rfl hlow hhigh)

/-- The first half of a surrogate pair. -/
theorem feedAll_high {c : Code} (hlow : ¬ isLow c.value = true) (hhigh : isHigh c.value = true)
    (content : List UInt8) :
    (holding content).feedAll (Glyph.code c).bytes
      = some ⟨true, content, .pair c.value⟩ := by
  rw [Code.bytes_eq, feedAll_append, holding, feedAll_digits, Option.bind_some]
  exact feedAll_lastDigit rfl (takeCode_high rfl hlow hhigh)

theorem feedAll_surrogates {c d : Code} (hlow : ¬ isLow c.value = true)
    (hhigh : isHigh c.value = true) (hd : isLow d.value = true) (content : List UInt8) :
    (holding content).feedAll ((Glyph.code c).bytes ++ (Glyph.code d).bytes)
      = some (holding ((Utf8.encodeChar (Char.ofNat
          (0x10000 + (c.value - 0xD800) * 0x400 + (d.value - 0xDC00)))).reverse ++ content)) := by
  rw [feedAll_append, feedAll_high hlow hhigh, Option.bind_some, Code.bytes_eq, feedAll_append,
    feedAll_pairDigits, Option.bind_some]
  exact feedAll_lastDigit rfl (takeCode_pair rfl c.value hd)

end TextToken

/-! ## Numbers -/

namespace NumberToken

open Number (digitsValue)

theorem le_digitsValue (n : Nat) (cs : List Char) : n ≤ digitsValue n cs := by
  induction cs generalizing n with
  | nil => exact Nat.le_refl n
  | cons c cs ih =>
    rw [Number.digitsValue_cons]
    exact Nat.le_trans (by omega) (ih _)

theorem digitsValue_ne_zero {c : Char} {cs : List Char} (hdigit : c.isDigit) (hc : c ≠ '0') :
    digitsValue 0 (c :: cs) ≠ 0 := by
  have hlow := (toNat_bounds hdigit).1
  have hne : c.toNat ≠ '0'.toNat := fun h => hc (Char.toNat_inj.mp h)
  have hzero : '0'.toNat = 48 := rfl
  have hle := le_digitsValue (0 * 10 + (c.toNat - '0'.toNat)) cs
  rw [Number.digitsValue_cons]
  omega

/-- The digits before the point. -/
theorem read?_literal (n : Literal) :
    ∃ stage, (stage = .zero ∧ n.whole = ['0']
        ∨ stage = .whole ∧ n.whole ≠ ['0'] ∧ digitsValue 0 n.whole ≠ 0)
      ∧ read? (bytes (minus n.negative ++ n.whole))
        = some ⟨n.negative, digitsValue 0 n.whole, 0, false, 0, stage⟩ := by
  rcases n.whole_leads with hzero | ⟨c, cs, hwhole, hc⟩
  · refine ⟨.zero, Or.inl ⟨rfl, hzero⟩, ?_⟩
    rw [hzero]
    exact read?_zero n.negative
  · have hall := n.whole_isDigit
    rw [hwhole] at hall ⊢
    refine ⟨.whole, Or.inr ⟨rfl, ?_, digitsValue_ne_zero (hall c (by simp)) hc⟩,
      read?_whole n.negative hall hc⟩
    intro h
    exact hc (List.cons.inj h).1

theorem feedAll_literalPower {t : NumberToken}
    (ht : t.stage = .zero ∨ t.stage = .whole ∨ t.stage = .fraction) (hshrinks : t.shrinks = false)
    (hpower : t.power = 0) (p : Power) :
    ∃ t', t.feedAll (bytes p.characters) = some t' ∧ t'.stage = .exponent
      ∧ t'.numeral = { t.numeral with exponent := p.value } := by
  obtain ⟨capital, sign, digits, hne, hdigits⟩ := p
  have hascii : (if capital then 'E' else 'e').toNat < 128 := by cases capital <;> decide
  have hrest := fun t ht => feedAll_exponent (t := t) ht hdigits hne
  rw [Power.characters, List.cons_append, bytes_cons_ascii hascii, feedAll, feed_mark ht]
  cases sign with
  | none =>
    refine ⟨_, hrest _ (Or.inl rfl), rfl, ?_⟩
    simp [numeral, Power.value, hshrinks, hpower]
  | plus =>
    refine ⟨_, hrest { t with stage := .markSign } (Or.inr rfl), rfl, ?_⟩
    simp [numeral, Power.value, hshrinks, hpower]
  | minus =>
    refine ⟨_, hrest { t with shrinks := true, stage := .markSign } (Or.inr rfl), rfl, ?_⟩
    simp [numeral, Power.value, hpower]

/-- The digits behind the point, if there are any. -/
theorem feedAll_literalFraction {t : NumberToken} (ht : t.stage = .zero ∨ t.stage = .whole)
    {fraction : List Char} (h : ∀ c ∈ fraction, c.isDigit) :
    t.feedAll (bytes (Literal.pointed fraction))
      = some { t with
          mantissa := digitsValue t.mantissa fraction
          places := t.places + fraction.length
          stage := if fraction = [] then t.stage else .fraction } := by
  cases fraction with
  | nil => rfl
  | cons c cs =>
    rw [if_neg (List.cons_ne_nil c cs)]
    exact feedAll_fraction ht h (List.cons_ne_nil c cs)

/-- A literal without its exponent. -/
theorem exists_stem (n : Literal) :
    ∃ t : NumberToken, (t.stage = .zero ∨ t.stage = .whole ∨ t.stage = .fraction)
      ∧ t.shrinks = false ∧ t.power = 0 ∧ t.numeral = { n.numeral with exponent := 0 }
      ∧ (n.power = none → t.integer? = n.integer?)
      ∧ ∀ cs, read? (bytes (minus n.negative ++ n.whole ++ Literal.pointed n.fraction ++ cs))
        = t.feedAll (bytes cs) := by
  obtain ⟨stage, hstage, hwhole⟩ := read?_literal n
  have hne : minus n.negative ++ n.whole ≠ [] := by
    intro h
    rw [h] at hwhole
    cases hwhole
  have hfraction := feedAll_literalFraction
    (t := ⟨n.negative, digitsValue 0 n.whole, 0, false, 0, stage⟩)
    (hstage.imp And.left And.left) n.fraction_isDigit
  refine ⟨⟨n.negative, digitsValue 0 (n.whole ++ n.fraction), n.fraction.length, false, 0,
    if n.fraction = [] then stage else .fraction⟩, ?_, rfl, rfl, rfl, ?_, ?_⟩
  · dsimp only
    split
    · rcases hstage with ⟨h, -⟩ | ⟨h, -⟩
      · exact Or.inl h
      · exact Or.inr (Or.inl h)
    · exact Or.inr (Or.inr rfl)
  · intro hp
    rw [Literal.integer?, hp]
    cases n.fraction with
    | nil =>
      rcases hstage with ⟨rfl, hzero⟩ | ⟨rfl, hzero, hvalue⟩
      · have hvalue : digitsValue 0 ['0'] = 0 := Number.digitsValue_zeros 0 1
        simp [integer?, hzero, hvalue]
      · simp [integer?, hzero, hvalue]
    | cons c cs => rfl
  · intro cs
    rw [List.append_assoc, bytes_append, read?_append (bytes_ne_nil hne), hwhole, Option.bind_some,
      bytes_append, feedAll_append, hfraction, Option.bind_some, Number.digitsValue_append]
    dsimp only
    rw [Nat.zero_add]

/-- A literal is read to its end as a number that may end there and says
what the literal says. -/
theorem exists_token (n : Literal) :
    ∃ t, read? (bytes n.characters) = some t ∧ t.complete ∧ t.numeral = n.numeral
      ∧ t.integer? = n.integer? := by
  obtain ⟨t, hstage, hshrinks, hpower, hnumeral, hinteger, hread⟩ := exists_stem n
  rw [Literal.characters, hread]
  cases hp : n.power with
  | none =>
    refine ⟨t, rfl, ?_, ?_, ?_⟩
    · rcases hstage with h | h | h <;> simp [complete, h]
    · rw [hnumeral, Literal.numeral, hp]
      rfl
    · exact hinteger hp
  | some p =>
    obtain ⟨t', hfeed, hexponent, hnumeral'⟩ := feedAll_literalPower hstage hshrinks hpower p
    refine ⟨t', hfeed, ?_, ?_, ?_⟩
    · simp [complete, hexponent]
    · rw [hnumeral', hnumeral, Literal.numeral, hp]
      rfl
    · simp [integer?, hexponent, Literal.integer?, hp]

end NumberToken

end MetricRelay.Wire
