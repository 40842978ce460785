import MetricRelay.Proofs.KeyPatterns
import MetricRelay.Proofs.Keys

/-!
# The text of a pattern

A text whose segments are letters of rules is the text of one pattern, and
that pattern has no other (`parse_display`). Any other text is refused at
the first segment that is no letter (`parse_eq_error_iff`), be it an empty
one at an end of the text or between two dots. The pattern without rules
would be shown as the empty text, which is refused; but neither is it the
default, nor is it read from any text.
-/

namespace MetricRelay

/-! ## Letters -/

namespace SegmentRule

theorem exists_token_iff {t : String} : (∃ rule : SegmentRule, t = rule.token) ↔ t = "k" ∨ t = "d" := by
  constructor
  · rintro ⟨rule, rfl⟩
    cases rule with
    | keep => exact Or.inl rfl
    | discard => exact Or.inr rfl
  · rintro (rfl | rfl)
    · exact ⟨keep, rfl⟩
    · exact ⟨discard, rfl⟩

theorem ofToken?_eq_none_iff {t : String} : ofToken? t = none ↔ ¬ (t = "k" ∨ t = "d") := by
  rw [← exists_token_iff, Option.eq_none_iff_forall_ne_some]
  simp only [ne_eq, ofToken?_eq_some_iff, not_exists]

theorem not_mem_token (rule : SegmentRule) : '.' ∉ rule.token.toList := by
  cases rule <;> decide

end SegmentRule

namespace KeyPattern

variable {s t : String} {p : KeyPattern}

theorem exists_map_token_iff {tokens : List String} :
    (∃ rules : List SegmentRule, tokens = rules.map SegmentRule.token)
      ↔ ∀ t ∈ tokens, t = "k" ∨ t = "d" := by
  simp only [← SegmentRule.exists_token_iff]
  constructor
  · rintro ⟨rules, rfl⟩ t ht
    obtain ⟨rule, -, rfl⟩ := List.mem_map.mp ht
    exact ⟨rule, rfl⟩
  · intro h
    induction tokens with
    | nil => exact ⟨[], rfl⟩
    | cons t tokens ih =>
      obtain ⟨rule, rfl⟩ := h t (List.mem_cons_self ..)
      obtain ⟨rules, rfl⟩ := ih fun u hu => h u (List.mem_cons_of_mem _ hu)
      exact ⟨rule :: rules, rfl⟩

/-! ## Refused texts -/

theorem map_eq_error_iff {ε α β : Type} {f : α → β} {x : Except ε α} {e : ε} :
    x.map f = .error e ↔ x = .error e := by
  cases x with
  | error e' => rw [Except.map, Except.error.injEq, Except.error.injEq]
  | ok a => exact ⟨nofun, nofun⟩

theorem rulesOf_eq_error_iff {tokens : List String} :
    rulesOf tokens = .error ⟨t⟩
      ↔ tokens.find? (fun u => (SegmentRule.ofToken? u).isNone) = some t := by
  induction tokens with
  | nil => exact ⟨nofun, nofun⟩
  | cons u tokens ih =>
    rw [List.find?_cons, rulesOf]
    cases SegmentRule.ofToken? u with
    | none =>
      show Except.error (InvalidKeyPattern.mk u) = .error ⟨t⟩ ↔ some u = some t
      rw [Except.error.injEq, Option.some.injEq, InvalidKeyPattern.mk.injEq]
    | some rule =>
      show (rulesOf tokens).map (rule :: ·) = _ ↔ tokens.find? _ = some t
      rw [map_eq_error_iff, ih]

theorem parse_eq_error_iff : parse s = .error ⟨t⟩ ↔ ∃ before after,
    Text.segments s = before ++ t :: after ∧ (∀ u ∈ before, u = "k" ∨ u = "d")
      ∧ ¬ (t = "k" ∨ t = "d") := by
  have hnone : ∀ u, (SegmentRule.ofToken? u).isNone ↔ ¬ (u = "k" ∨ u = "d") := fun u => by
    rw [Option.isNone_iff_eq_none, SegmentRule.ofToken?_eq_none_iff]
  rw [parse, map_eq_error_iff, rulesOf_eq_error_iff, List.find?_eq_some_iff_append, hnone]
  simp only [Bool.not_eq_true', ← Bool.not_eq_true, hnone, Decidable.not_not]
  constructor
  · rintro ⟨ht, before, after, hsegments, hbefore⟩
    exact ⟨before, after, hsegments, hbefore, ht⟩
  · rintro ⟨before, after, hsegments, hbefore, ht⟩
    exact ⟨ht, before, after, hsegments, hbefore⟩

/-! ## Texts of patterns -/

theorem parse_display (h : p.rules ≠ []) : parse p.display = .ok p := by
  rw [parse_eq_ok_iff, display]
  refine Text.segments_dotted (by simpa using h) fun t ht => ?_
  obtain ⟨rule, -, rfl⟩ := List.mem_map.mp ht
  exact rule.not_mem_token

/-- The patterns that there are: the default one and those that are read. -/
inductive Obtained : KeyPattern → Prop
  | default : Obtained .default
  | parsed {s : String} {p : KeyPattern} (h : parse s = .ok p) : Obtained p

theorem Obtained.rules_ne_nil (h : Obtained p) : p.rules ≠ [] := by
  cases h with
  | default => decide
  | parsed h =>
    rintro hnil
    rw [parse_eq_ok_iff, hnil, List.map_nil, Text.segments, List.map_eq_nil_iff] at h
    exact Text.cut_ne_nil _ _ h

/-- A text is read as a pattern just when all its segments are letters of
rules; the pattern is shown as that text. Otherwise the first segment that
is no letter is named. Every pattern that there is has a rule and is read
again from the text it is shown as. -/
theorem texts_canonical :
    (∀ s, (∃ p, parse s = .ok p) ↔ ∀ t ∈ Text.segments s, t = "k" ∨ t = "d")
      ∧ (∀ s p, parse s = .ok p → p.display = s)
      ∧ (∀ s t, parse s = .error ⟨t⟩ ↔ ∃ before after, Text.segments s = before ++ t :: after
          ∧ (∀ u ∈ before, u = "k" ∨ u = "d") ∧ ¬ (t = "k" ∨ t = "d"))
      ∧ ∀ p, Obtained p → p.rules ≠ [] ∧ parse p.display = .ok p := by
  refine ⟨fun s => ?_, fun s p => display_of_parse, fun s t => parse_eq_error_iff, fun p hp => ?_⟩
  · rw [← exists_map_token_iff]
    simp only [parse_eq_ok_iff]
    exact ⟨fun ⟨p, hp⟩ => ⟨p.rules, hp⟩, fun ⟨rules, h⟩ => ⟨⟨rules⟩, h⟩⟩
  · exact ⟨hp.rules_ne_nil, parse_display hp.rules_ne_nil⟩

/-- A pattern that keeps its second segment, and two texts whose faults
are empty segments. -/
theorem texts_canonical_of_empty_segments :
    let p : KeyPattern := ⟨[.discard, .keep]⟩
    parse "d.k" = .ok p ∧ p.display = "d.k" ∧ parse p.display = .ok p
      ∧ parse "" = .error ⟨""⟩ ∧ parse "d..x" = .error ⟨""⟩ := by
  intro p
  obtain ⟨-, hdisplay, hrefused, hobtained⟩ := texts_canonical
  have hp : parse "d.k" = .ok p := parse_eq_ok_iff.mpr (by decide)
  refine ⟨hp, hdisplay _ _ hp, (hobtained p (.parsed hp)).2, ?_, ?_⟩
  · exact (hrefused "" "").mpr ⟨[], [], by decide, nofun, by decide⟩
  · exact (hrefused "d..x" "").mpr ⟨["d"], ["x"], by decide, by simp, by decide⟩

end KeyPattern

end MetricRelay
