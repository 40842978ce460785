import Mathlib.Data.Prod.Lex
import Mathlib.Order.Compare

/-!
# The order of floating point numbers

To compare two numbers is to compare their places in a linear order: first
what kind of number they are, then the exponent and then the significand,
the last two downwards below zero (`compare_eq_place`). What is no number
compares with nothing, and that is all that keeps the floating point
numbers from being in a linear order (`float_le_iff`, `float_lt_iff`).
-/

namespace MetricRelay.Number

open Float.Model

/-! ## Places -/

/-- The place of a value among the others. The two zeros share one. -/
def place : UnpackedFloat → Int ×ₗ Int ×ₗ Int
  | .infinity .negative => toLex (-2, toLex (0, 0))
  | .finite .negative m e _ => toLex (-1, toLex (-e, -(m : Int)))
  | .zero _ => toLex (0, toLex (0, 0))
  | .finite .positive m e _ => toLex (1, toLex (e, (m : Int)))
  | .infinity .positive => toLex (2, toLex (0, 0))
  | .notANumber => toLex (0, toLex (0, 0))

theorem compare_lex (k : Int) (e m f n : Int) :
    compare (toLex (k, toLex (e, m))) (toLex (k, toLex (f, n)))
      = (compare e f).then (compare m n) := by
  rw [Prod.Lex.compare_def, compareLex, compareOn, compareOn]
  dsimp only [ofLex_toLex]
  rw [Std.ReflOrd.compare_self, Ordering.then, Prod.Lex.compare_def]
  rfl

theorem compare_neg (m n : Int) : compare (-m) (-n) = (compare m n).swap := by
  rcases lt_trichotomy m n with h | rfl | h
  · rw [compare_gt_iff_gt.mpr (Int.neg_lt_neg h), compare_lt_iff_lt.mpr h]
    rfl
  · rw [Std.ReflOrd.compare_self, Std.ReflOrd.compare_self]
    rfl
  · rw [compare_lt_iff_lt.mpr (Int.neg_lt_neg h), compare_gt_iff_gt.mpr h]
    rfl

theorem compare_natCast (m n : Nat) : compare (m : Int) n = compare m n := by
  rcases lt_trichotomy m n with h | rfl | h
  · rw [compare_lt_iff_lt.mpr (Int.ofNat_lt.mpr h), compare_lt_iff_lt.mpr h]
  · rw [Std.ReflOrd.compare_self, Std.ReflOrd.compare_self]
  · rw [compare_gt_iff_gt.mpr (Int.ofNat_lt.mpr h), compare_gt_iff_gt.mpr h]

theorem compare_finite (s : UnpackedFloat.Sign) {m n : Nat} (e f : Int) (hm : 0 < m) (hn : 0 < n) :
    (UnpackedFloat.finite s m e hm).compare (.finite s n f hn)
      = some (compare (place (.finite s m e hm)) (place (.finite s n f hn))) := by
  cases s with
  | negative =>
    show _ = some (compare (toLex (-1, toLex (-e, -(m : Int)))) (toLex (-1, toLex (-f, -(n : Int)))))
    rw [compare_lex, compare_neg, compare_neg, compare_natCast, ← Ordering.swap_then]
    rfl
  | positive =>
    show _ = some (compare (toLex (1, toLex (e, (m : Int)))) (toLex (1, toLex (f, (n : Int)))))
    rw [compare_lex, compare_natCast]
    rfl

theorem compare_eq_place {a b : UnpackedFloat} (ha : a.isNaN = false) (hb : b.isNaN = false) :
    a.compare b = some (compare (place a) (place b)) := by
  cases a with
  | notANumber => cases ha
  | infinity s =>
    cases b with
    | notANumber => cases hb
    | _ t => cases s <;> cases t <;> rfl
  | zero s =>
    cases b with
    | notANumber => cases hb
    | _ t => cases t <;> rfl
  | finite s m e hm =>
    cases b with
    | notANumber => cases hb
    | finite t n f hn =>
      cases s <;> cases t <;> first | rfl | exact compare_finite _ e f hm hn
    | _ t => cases s <;> cases t <;> rfl

theorem compare_of_isNaN {a b : UnpackedFloat} (h : ¬ (a.isNaN = false ∧ b.isNaN = false)) :
    a.compare b = none := by
  cases a with
  | notANumber => rfl
  | _ s =>
    cases b with
    | notANumber => cases s <;> rfl
    | _ t => exact absurd ⟨rfl, rfl⟩ h

/-! ## Comparisons -/

variable {x y z : Float}

/-- The place of a number among the others. -/
def placeOf (x : Float) : Int ×ₗ Int ×ₗ Int := place x.toModel.unpack

theorem compare_eq_placeOf (x y : Float) : x.toModel.unpack.compare y.toModel.unpack
    = if x.isNaN = false ∧ y.isNaN = false then some (compare (placeOf x) (placeOf y)) else none := by
  split
  · next h => exact compare_eq_place h.1 h.2
  · next h => exact compare_of_isNaN h

theorem float_le_iff : x ≤ y ↔ x.isNaN = false ∧ y.isNaN = false ∧ placeOf x ≤ placeOf y := by
  have hle : x ≤ y ↔ (x.toModel.unpack.compare y.toModel.unpack).any (·.isLE) := decide_eq_true_iff
  rw [hle, compare_eq_placeOf, ← and_assoc]
  split
  · next h =>
    rw [Option.any_some, and_iff_right h, Ordering.isLE_iff_ne_gt]
    exact compare_le_iff_le
  · next h => exact iff_of_false (by simp) fun h' => h h'.1

theorem float_lt_iff : x < y ↔ x.isNaN = false ∧ y.isNaN = false ∧ placeOf x < placeOf y := by
  have hlt : x < y ↔ x.toModel.unpack.compare y.toModel.unpack == some .lt := decide_eq_true_iff
  rw [hlt, compare_eq_placeOf, ← and_assoc, beq_iff_eq]
  split
  · next h => rw [Option.some.injEq, and_iff_right h, compare_lt_iff_lt]
  · next h => exact iff_of_false nofun fun h' => h h'.1

theorem float_not_lt_of_isNaN (h : x.isNaN = true ∨ y.isNaN = true) : ¬ x < y := by
  intro hlt
  obtain ⟨hx, hy, -⟩ := float_lt_iff.mp hlt
  rcases h with h | h
  · exact Bool.false_ne_true (hx.symm.trans h)
  · exact Bool.false_ne_true (hy.symm.trans h)

theorem float_le_of_not_lt (hx : x.isNaN = false) (hy : y.isNaN = false) (h : ¬ x < y) : y ≤ x :=
  float_le_iff.mpr ⟨hy, hx, not_lt.mp fun hplace => h (float_lt_iff.mpr ⟨hx, hy, hplace⟩)⟩

theorem float_le_refl (hx : x.isNaN = false) : x ≤ x := float_le_iff.mpr ⟨hx, hx, le_rfl⟩

theorem float_le_of_lt (h : x < y) : x ≤ y := by
  obtain ⟨hx, hy, hplace⟩ := float_lt_iff.mp h
  exact float_le_iff.mpr ⟨hx, hy, hplace.le⟩

theorem float_le_trans (h : x ≤ y) (h' : y ≤ z) : x ≤ z := by
  obtain ⟨hx, -, hplace⟩ := float_le_iff.mp h
  obtain ⟨-, hz, hplace'⟩ := float_le_iff.mp h'
  exact float_le_iff.mpr ⟨hx, hz, hplace.trans hplace'⟩

theorem float_lt_of_lt_of_le (h : x < y) (h' : y ≤ z) : x < z := by
  obtain ⟨hx, -, hplace⟩ := float_lt_iff.mp h
  obtain ⟨-, hz, hplace'⟩ := float_le_iff.mp h'
  exact float_lt_iff.mpr ⟨hx, hz, hplace.trans_le hplace'⟩

theorem float_lt_of_le_of_lt (h : x ≤ y) (h' : y < z) : x < z := by
  obtain ⟨hx, -, hplace⟩ := float_le_iff.mp h
  obtain ⟨-, hz, hplace'⟩ := float_lt_iff.mp h'
  exact float_lt_iff.mpr ⟨hx, hz, hplace.trans_lt hplace'⟩

theorem float_not_lt_of_le (h : x ≤ y) : ¬ y < x := by
  intro hlt
  exact absurd (float_le_iff.mp h).2.2 (not_le.mpr (float_lt_iff.mp hlt).2.2)

end MetricRelay.Number
