import MetricRelay.KeyPattern

/-!
# Key patterns and their texts

A text is a pattern just when its segments are the letters of the rules
(`parse_eq_ok_iff`), so a pattern is shown as the text it was read from.
-/

namespace MetricRelay

theorem SegmentRule.ofToken?_eq_some_iff {token : String} {rule : SegmentRule} :
    ofToken? token = some rule ↔ token = rule.token := by
  constructor
  · intro h
    unfold ofToken? at h
    split at h
    · next htoken =>
      cases h
      exact htoken
    · split at h
      · next htoken =>
        cases h
        exact htoken
      · cases h
  · rintro rfl
    cases rule <;> rfl

namespace KeyPattern

theorem rulesOf_eq_ok_iff {tokens : List String} {rules : List SegmentRule} :
    rulesOf tokens = .ok rules ↔ tokens = rules.map SegmentRule.token := by
  induction tokens generalizing rules with
  | nil =>
    cases rules with
    | nil => exact ⟨fun _ => rfl, fun _ => rfl⟩
    | cons rule rules => exact ⟨nofun, nofun⟩
  | cons token tokens ih =>
    unfold rulesOf
    constructor
    · intro h
      cases hrule : SegmentRule.ofToken? token with
      | none =>
        rw [hrule] at h
        cases h
      | some rule =>
        rw [hrule] at h
        cases hrest : rulesOf tokens with
        | error e =>
          rw [hrest] at h
          cases h
        | ok rest =>
          rw [hrest] at h
          cases h
          rw [List.map_cons, ← SegmentRule.ofToken?_eq_some_iff.mp hrule, ← ih.mp hrest]
    · intro h
      obtain ⟨rule, rest, rfl, rfl, rfl⟩ := List.map_eq_cons_iff.mp h.symm
      rw [SegmentRule.ofToken?_eq_some_iff.mpr rfl, ih.mpr rfl]
      rfl

theorem parse_eq_ok_iff {s : String} {p : KeyPattern} :
    parse s = .ok p ↔ Text.segments s = p.rules.map SegmentRule.token := by
  rw [← rulesOf_eq_ok_iff, parse]
  cases rulesOf (Text.segments s) with
  | error e => exact ⟨nofun, nofun⟩
  | ok rules =>
    constructor
    · rintro ⟨⟩
      rfl
    · rintro ⟨⟩
      rfl

theorem display_of_parse {s : String} {p : KeyPattern} (h : parse s = .ok p) : p.display = s := by
  rw [display, ← parse_eq_ok_iff.mp h, Text.dotted_segments]

end KeyPattern

end MetricRelay
