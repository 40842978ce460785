import MetricRelay.Proofs.Names
import Mathlib.Data.List.Infix

/-!
# The tests for counters

Whether a name is that of a counter is asked in three ways: by the family
that its first segment names, by how the name begins, and by whether
`counter.` stands anywhere in it. The first two are one test
(`of?_eq_some_iff`). The third is the second one asked of every part that
is left when something is cut off the front (`holds_counterBeginning_iff`),
so a counter can be reset behind any namespace.
-/

namespace MetricRelay

namespace Text

theorem startsWith_iff_exists_append {s p : String} : startsWith s p ↔ ∃ rest, s = p ++ rest := by
  rw [← isSome_stripBeginning?, Option.isSome_iff_exists]
  exact exists_congr fun rest => stripBeginning?_eq_some_iff

theorem occursIn_iff_isInfix {p cs : List Char} : occursIn p cs ↔ p <:+: cs := by
  induction cs with
  | nil => rw [occursIn, List.isEmpty_iff, List.infix_nil]
  | cons c cs ih =>
    have hhead : (dropBeginning? p (c :: cs)).isSome ↔ p <+: c :: cs := by
      rw [Option.isSome_iff_exists]
      exact exists_congr fun rest => dropBeginning?_eq_some_iff.trans eq_comm
    rw [occursIn, Bool.or_eq_true, hhead, ih, List.infix_cons_iff]

/-- A part stands in a text just when something that begins with it is left
of the text after a cut. -/
theorem holds_iff {s p : String} :
    holds s p ↔ ∃ front back, s = front ++ back ∧ startsWith back p := by
  rw [holds, occursIn_iff_isInfix]
  constructor
  · rintro ⟨before, behind, heq⟩
    refine ⟨String.ofList before, p ++ String.ofList behind, String.toList_inj.mp ?_,
      startsWith_iff_exists_append.mpr ⟨_, rfl⟩⟩
    rw [← heq, String.toList_append, String.toList_append, String.toList_ofList,
      String.toList_ofList, List.append_assoc]
  · rintro ⟨front, back, rfl, hback⟩
    obtain ⟨rest, rfl⟩ := startsWith_iff_exists_append.mp hback
    refine ⟨front.toList, rest.toList, ?_⟩
    rw [String.toList_append, String.toList_append, List.append_assoc]

end Text

namespace Metric

theorem holds_counterBeginning_iff {name : String} :
    Text.holds name counterBeginning ↔ ∃ p q, name = p ++ q ∧ namesCounter q :=
  Text.holds_iff

theorem namesCounter_append {name : String} (h : namesCounter name) (s : String) :
    namesCounter (name ++ s) := by
  obtain ⟨rest, rfl⟩ := Text.startsWith_iff_exists_append.mp h
  exact Text.startsWith_iff_exists_append.mpr ⟨rest ++ s, String.append_assoc ..⟩

theorem counterReset?_isSome_iff {name : String} {asked : Instant} :
    (counterReset? name asked).isSome ↔ ∃ p q, name = p ++ q ∧ namesCounter q := by
  rw [← holds_counterBeginning_iff, counterReset?]
  split
  · next h => exact iff_of_true rfl h
  · next h => exact iff_of_false Bool.false_ne_true h

theorem counterReset?_eq_some {name : String} {asked : Instant}
    (h : (counterReset? name asked).isSome) :
    counterReset? name asked = some { name, value := 0, observed := asked } := by
  unfold counterReset? at h ⊢
  split at h
  · next hholds => rw [if_pos hholds]
  · cases h

/-- A name is of a family just when it begins with the family's segment and
a dot; the metrics of the counter family are the counters. A counter that
something is put before and behind can be reset under just that name, and
there is no reset but of a counter behind something. -/
theorem counter_tests_agree :
    (∀ name (f : Family), Family.of? name = some f ↔ ∃ rest, name = f.segment ++ "." ++ rest)
      ∧ (∀ m : Metric, Family.of? m.name = some .counter ↔ m.isCounter)
      ∧ (∀ name asked, namesCounter name → ∀ p s,
          counterReset? (p ++ name ++ s) asked = some ⟨p ++ name ++ s, 0, asked⟩)
      ∧ ∀ name asked, (counterReset? name asked).isSome
          ↔ ∃ p q, name = p ++ q ∧ namesCounter q := by
  refine ⟨?_, fun m => Family.of?_eq_some_iff, ?_, fun name asked => counterReset?_isSome_iff⟩
  · intro name f
    exact Family.of?_eq_some_iff.trans Text.startsWith_iff_exists_append
  · intro name asked hname p s
    refine counterReset?_eq_some (counterReset?_isSome_iff.mpr ⟨p, name ++ s, ?_, ?_⟩)
    · exact String.append_assoc ..
    · exact namesCounter_append hname s

/-- The counter stands between a namespace with an empty segment and a
part that looks like a counter again. -/
theorem counter_tests_agree_of_namespace :
    namesCounter "counter.hits"
      ∧ Family.of? "app..counter.hits.counter." = none
      ∧ counterReset? ("app.." ++ "counter.hits" ++ ".counter.") ⟨5⟩
        = some ⟨"app..counter.hits.counter.", 0, ⟨5⟩⟩ := by
  obtain ⟨-, -, hreset, -⟩ := counter_tests_agree
  exact ⟨by decide, by decide, hreset "counter.hits" ⟨5⟩ (by decide) "app.." ".counter."⟩

end Metric

end MetricRelay
