import MetricRelay.Text.Utf8
import Mathlib.Tactic.SplitIfs

/-!
# The order of names is the order of their bytes

Texts are compared character by character. That is the order of the
bytes that encode them, because the code of a later character begins
with a greater byte or goes on with one (`encodeChar_lt`), wherever one
of the two ends.
-/

namespace MetricRelay.Utf8

theorem encodeChar_lt {c d : Char} (h : c < d) (cs ds : List UInt8) :
    encodeChar c ++ cs < encodeChar d ++ ds := by
  have hlt : c.val.toNat < d.val.toNat := UInt32.lt_iff_toNat_lt.mp (Char.lt_def.mp h)
  have hvalid : d.val.toNat < 0xD800 ∨ 0xDFFF < d.val.toNat ∧ d.val.toNat < 0x110000 := d.valid
  have hmax : d.val.toNat < 0x110000 := by omega
  unfold encodeChar String.utf8EncodeChar
  generalize c.val.toNat = v at hlt
  generalize d.val.toNat = w at hlt hmax
  dsimp only
  -- one case for each pair of lengths; the first byte that differs decides
  split_ifs <;>
    simp (disch := omega) only [List.cons_append, List.nil_append, List.cons_lt_cons_iff,
      UInt8.lt_iff_toNat_lt, ← UInt8.toNat_inj, UInt8.toNat_ofNat', Nat.mod_eq_of_lt] <;>
    omega

theorem flatMap_encodeChar_lt {cs ds : List Char} (h : cs < ds) :
    cs.flatMap encodeChar < ds.flatMap encodeChar := by
  induction h with
  | @nil d ds =>
    obtain ⟨b, bs, hd⟩ : ∃ b bs, encodeChar d = b :: bs :=
      List.exists_cons_of_ne_nil String.utf8EncodeChar_ne_nil
    rw [List.flatMap_nil, List.flatMap_cons, hd]
    exact List.nil_lt_cons _ _
  | rel h => exact encodeChar_lt h _ _
  | cons _ ih => exact List.append_left_lt ih

/-- The order of texts is that of their encodings. -/
theorem encode_lt_iff {s t : String} : encode s < encode t ↔ s < t := by
  refine ⟨fun h => ?_, fun h => flatMap_encodeChar_lt (String.lt_iff.mp h)⟩
  by_cases hlt : t < s
  · exact absurd h (List.lt_asymm (flatMap_encodeChar_lt (String.lt_iff.mp hlt)))
  · refine String.not_le.mp fun hle => ?_
    obtain rfl := String.le_antisymm hle (String.not_lt.mp hlt)
    exact List.lt_irrefl _ h

end MetricRelay.Utf8
