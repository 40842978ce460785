import MetricRelay.Proofs.Wire.Numbers
import MetricRelay.Text.Quoted
import MetricRelay.Wire.TextToken

/-!
# Reading texts byte by byte

What the writer puts between quotes is read back (`feedAll_quoted`). The
argument is per character: whatever class a character belongs to, a text
that is fed what stands for it has the bytes of the character in its
content (`feedAll_escapeChar`).
-/

namespace MetricRelay

theorem Utf8.decode?_encode (s : String) : decode? (encode s) = some s := by
  have hbytes : (⟨(encode s).toArray⟩ : ByteArray) = s.toByteArray := by
    apply ByteArray.ext
    rw [← String.ofList_toList (s := s), String.toByteArray_ofList, List.utf8Encode,
      List.data_toByteArray, String.ofList_toList]
    rfl
  unfold decode? String.fromUTF8?
  rw [hbytes, dif_pos s.isValidUTF8]
  rfl

theorem toNat_ofNat_lt {n : Nat} (h : n < 256) : (UInt8.ofNat n).toNat = n :=
  Nat.mod_eq_of_lt h

theorem Utf8.le_of_mem_encodeChar {c : Char} (hc : 128 ≤ c.toNat) {b : UInt8}
    (h : b ∈ encodeChar c) : 0x80 ≤ b := by
  have hsmall : ¬ c.val.toNat ≤ 0x7f := by
    show ¬ c.toNat ≤ 127
    omega
  have hbyte : ∀ m n : Nat, m < 64 → 128 ≤ n → n + m < 256 → 0x80 ≤ UInt8.ofNat (m + n) := by
    intro m n hm hn hlt
    rw [UInt8.le_iff_toNat_le, toNat_ofNat_lt (by omega)]
    show 128 ≤ _
    omega
  unfold encodeChar String.utf8EncodeChar at h
  dsimp only at h
  generalize c.val.toNat = v at h hsmall
  rw [if_neg hsmall] at h
  split at h
  · simp only [List.mem_cons, List.not_mem_nil, or_false] at h
    rcases h with rfl | rfl <;> exact hbyte _ _ (by omega) (by omega) (by omega)
  · split at h
    · simp only [List.mem_cons, List.not_mem_nil, or_false] at h
      rcases h with rfl | rfl | rfl <;> exact hbyte _ _ (by omega) (by omega) (by omega)
    · simp only [List.mem_cons, List.not_mem_nil, or_false] at h
      rcases h with rfl | rfl | rfl | rfl <;> exact hbyte _ _ (by omega) (by omega) (by omega)

namespace Wire.TextToken

/-- The text after more bytes, if it goes on for all of them. -/
def feedAll (t : TextToken) : List UInt8 → Option TextToken
  | [] => some t
  | b :: bs =>
    match t.feed b with
    | .ok (.goes t) => feedAll t bs
    | _ => none

theorem feedAll_append (t : TextToken) (bs cs : List UInt8) :
    t.feedAll (bs ++ cs) = (t.feedAll bs).bind fun t => t.feedAll cs := by
  induction bs generalizing t with
  | nil => rfl
  | cons b bs ih =>
    rw [List.cons_append, feedAll, feedAll]
    split
    · next t' _ => exact ih t'
    · rfl

/-- A text read for its content, with this content so far. -/
def holding (content : List UInt8) : TextToken := ⟨true, content, .plain⟩

/-- Bytes that are neither quotes nor backslashes nor control characters
are content. -/
theorem feedAll_plain {bs : List UInt8} (content : List UInt8)
    (h : ∀ b ∈ bs, b ≠ 0x22 ∧ b ≠ 0x5C ∧ ¬ b < 0x20) :
    (holding content).feedAll bs = some (holding (bs.reverse ++ content)) := by
  induction bs generalizing content with
  | nil => rfl
  | cons b bs ih =>
    obtain ⟨hquote, hbackslash, hcontrol⟩ := h b (List.mem_cons_self ..)
    have hfeed : (holding content).feed b = .ok (.goes (holding (b :: content))) := by
      unfold feed holding
      dsimp only
      rw [if_neg hquote, if_neg hbackslash, if_neg hcontrol, if_pos rfl]
    rw [feedAll, hfeed]
    dsimp only
    rw [ih (b :: content) fun d hd => h d (List.mem_cons_of_mem b hd), List.reverse_cons,
      List.append_assoc, List.singleton_append]

/-- The two hexadecimal digits of a control character are read as its code. -/
theorem codeOf?_control : ∀ n : Fin 0x20,
    codeOf? [(Text.hexDigit (n.val % 16)).toUInt8, (Text.hexDigit (n.val / 16)).toUInt8, 0x30, 0x30]
      = some n.val := by
  decide

theorem hexDigit_ascii : ∀ n : Fin 16, (Text.hexDigit n.val).toNat < 128 := by
  decide

theorem feedAll_control {c : Char} (hc : c.toNat < 0x20) (content : List UInt8) :
    (holding content).feedAll (bytes ['\\', 'u', '0', '0', Text.hexDigit (c.toNat / 16),
        Text.hexDigit (c.toNat % 16)])
      = some (holding ((Utf8.encodeChar c).reverse ++ content)) := by
  have hfirst := hexDigit_ascii ⟨c.toNat / 16, by omega⟩
  have hsecond := hexDigit_ascii ⟨c.toNat % 16, by omega⟩
  have hcode := codeOf?_control ⟨c.toNat, hc⟩
  dsimp only at hfirst hsecond hcode
  have hbytes : bytes ['\\', 'u', '0', '0', Text.hexDigit (c.toNat / 16),
      Text.hexDigit (c.toNat % 16)] = [0x5C, 0x75, 0x30, 0x30,
      (Text.hexDigit (c.toNat / 16)).toUInt8, (Text.hexDigit (c.toNat % 16)).toUInt8] := by
    rw [bytes_cons_ascii (by decide), bytes_cons_ascii (by decide), bytes_cons_ascii (by decide),
      bytes_cons_ascii (by decide), bytes_cons_ascii hfirst, bytes_cons_ascii hsecond]
    rfl
  have hlast : (⟨true, content, .code none [(Text.hexDigit (c.toNat / 16)).toUInt8, 0x30, 0x30]⟩ :
      TextToken).feed (Text.hexDigit (c.toNat % 16)).toUInt8
        = .ok (.goes (holding ((Utf8.encodeChar c).reverse ++ content))) := by
    have hlow : isLow c.toNat = false := by
      rw [isLow, Bool.and_eq_false_iff]
      exact Or.inl (decide_eq_false (by omega))
    have hhigh : isHigh c.toNat = false := by
      rw [isHigh, Bool.and_eq_false_iff]
      exact Or.inl (decide_eq_false (by omega))
    unfold feed
    dsimp only
    rw [if_neg (by simp), hcode]
    dsimp only
    rw [takeCode, if_pos rfl, hlow, if_neg Bool.false_ne_true, hhigh, if_neg Bool.false_ne_true,
      push, Char.ofNat_toNat]
    rfl
  rw [hbytes]
  show (⟨true, content, .code none [(Text.hexDigit (c.toNat / 16)).toUInt8, 0x30, 0x30]⟩ :
    TextToken).feedAll [_] = _
  rw [feedAll, hlast]
  rfl

theorem feedAll_escapeChar (c : Char) (content : List UInt8) :
    (holding content).feedAll (bytes (Text.escapeChar c))
      = some (holding ((Utf8.encodeChar c).reverse ++ content)) := by
  unfold Text.escapeChar
  split
  · next h => subst h; rfl
  split
  · next h => subst h; rfl
  split
  · next h => subst h; rfl
  split
  · next h => subst h; rfl
  split
  · next h => subst h; rfl
  split
  · next h => subst h; rfl
  split
  · next h => subst h; rfl
  split
  · next h => exact feedAll_control h content
  · next hquote hbackslash _ _ _ _ _ hcontrol =>
    rw [bytes, List.flatMap_singleton]
    refine feedAll_plain content fun b hb => ?_
    by_cases hc : c.toNat < 128
    · rw [encodeChar_ascii hc, List.mem_singleton] at hb
      have hbyte : b.toNat = c.toNat := by rw [hb, NumberToken.toNat_toUInt8 hc]
      refine ⟨fun h => hquote ?_, fun h => hbackslash ?_, fun h => hcontrol ?_⟩
      · rw [← Char.toNat_inj, ← hbyte, h]
        rfl
      · rw [← Char.toNat_inj, ← hbyte, h]
        rfl
      · rw [← hbyte]
        exact UInt8.lt_iff_toNat_lt.mp h
    · have hge := UInt8.le_iff_toNat_le.mp (Utf8.le_of_mem_encodeChar (not_lt.mp hc) hb)
      have hbound : 128 ≤ b.toNat := hge
      refine ⟨fun h => ?_, fun h => ?_, fun h => ?_⟩
      · rw [h] at hbound
        exact absurd hbound (by decide)
      · rw [h] at hbound
        exact absurd hbound (by decide)
      · have hlt : b.toNat < 32 := UInt8.lt_iff_toNat_lt.mp h
        omega

theorem feedAll_escaped (cs : List Char) (content : List UInt8) :
    (holding content).feedAll (bytes (cs.flatMap Text.escapeChar))
      = some (holding ((bytes cs).reverse ++ content)) := by
  induction cs generalizing content with
  | nil => rfl
  | cons c cs ih =>
    rw [List.flatMap_cons, bytes_append, feedAll_append, feedAll_escapeChar, Option.bind_some, ih,
      bytes_cons, List.reverse_append, List.append_assoc]

theorem feedAll_quoted (s : String) :
    (start true).feedAll (bytes (s.toList.flatMap Text.escapeChar))
      = some (holding (Utf8.encode s).reverse) := by
  have h := feedAll_escaped s.toList []
  rw [List.append_nil] at h
  exact h

theorem textOf_encode (s : String) : textOf (Utf8.encode s).reverse = .ok s := by
  rw [textOf, List.reverse_reverse, Utf8.decode?_encode]

end Wire.TextToken

end MetricRelay
