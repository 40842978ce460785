import MetricRelay.Proofs.Config.Overrides

/-!
# Overrides that are refused

Overrides are applied in a fixed order and there is no way back: where one
is refused, those before it are in effect. A call that fails therefore
does what a call with these alone does, which succeeds
(`override_accepted`), and no more.
-/

namespace MetricRelay

open Config

namespace Overrides

variable {o : Overrides}

/-- The overrides before the first one that is refused; all of them if
none is. -/
def accepted (o : Overrides) : Overrides :=
  if o.readsHeaders then
    if o.readsLevel then o else { o with logLevel := .none }
  else { Overrides.none with nameSpace := o.nameSpace, exchange := o.exchange }

theorem refusal?_accepted (o : Overrides) : o.accepted.refusal? = .none := by
  rw [refusal?_eq_none_iff, accepted]
  split
  · next hheaders =>
    split
    · next hlevel => exact ⟨hheaders, hlevel⟩
    · exact ⟨hheaders, rfl⟩
  · exact ⟨rfl, rfl⟩

theorem change_accepted (o : Overrides) : o.accepted.change = o.change := by
  by_cases hheaders : o.readsHeaders
  · by_cases hlevel : o.readsLevel
    · rw [accepted, if_pos hheaders, if_pos hlevel]
    · have hsame : ({ o with logLevel := .none } : Overrides).readsHeaders = o.readsHeaders := rfl
      rw [accepted, if_pos hheaders, if_neg hlevel, change, change, hsame, if_pos hheaders,
        if_pos hheaders, bind_parse?_of_not_readsLevel hlevel]
      rfl
  · rw [accepted, if_neg hheaders, change, change, if_neg hheaders]
    rfl

/-- Either the text for the headers is refused, and only names are
overridden, or the log level is, and all else is overridden. -/
theorem accepted_of_refusal? {e : ConfigError} (h : o.refusal? = some e) :
    (e = ⟨.invalidValue, .override "add_headers", .none⟩
        ∧ (∃ s, o.addHeaders = some s ∧ flag? s = .none)
        ∧ o.accepted = { Overrides.none with nameSpace := o.nameSpace, exchange := o.exchange })
      ∨ (e = ⟨.invalidValue, .override "log_level", some .level⟩
        ∧ (∃ s, o.logLevel = some s ∧ Log.Level.parse? s = .none)
        ∧ o.accepted = { o with logLevel := .none }) := by
  unfold refusal? at h
  unfold accepted
  split at h
  · next hheaders =>
    split at h
    · cases h
    · next hlevel =>
      cases h
      rw [if_pos hheaders, if_neg hlevel]
      exact Or.inr ⟨rfl, not_all_isSome_iff.mp hlevel, rfl⟩
  · next hheaders =>
    cases h
    rw [if_neg hheaders]
    exact Or.inl ⟨rfl, not_all_isSome_iff.mp hheaders, rfl⟩

end Overrides

namespace Config

variable {c : Config} {o : Overrides}

/-- A call does what the overrides before the refused one do alone. -/
theorem override_accepted (c : Config) (o : Overrides) :
    c.override o.accepted = (none, (c.override o).2) := by
  rw [override_eq, override_eq, Overrides.refusal?_accepted, Overrides.change_accepted]

theorem override_none (c : Config) : c.override .none = (none, c) := rfl

/-- Overrides that are refused say which text was, and leave the
configuration that those before it make of it when they are given alone:
the producer's prefix and the exchange where the text for the headers is
refused, all others where the log level is. -/
theorem override_of_refused {e : ConfigError} (h : (c.override o).1 = some e) :
    c.override o.accepted = (none, (c.override o).2)
      ∧ ((e = ⟨.invalidValue, .override "add_headers", none⟩
            ∧ (∃ s, o.addHeaders = some s ∧ Overrides.flag? s = none)
            ∧ o.accepted
              = { Overrides.none with nameSpace := o.nameSpace, exchange := o.exchange })
          ∨ (e = ⟨.invalidValue, .override "log_level", some .level⟩
            ∧ (∃ s, o.logLevel = some s ∧ Log.Level.parse? s = none)
            ∧ o.accepted = { o with logLevel := none }))
      ∧ o.accepted.Keeps c (c.override o).2
      ∧ (c.override o).2.values.logging = c.values.logging
      ∧ (o.accepted = .none → (c.override o).2 = c) := by
  have hsame := override_accepted c o
  have hkeeps : o.accepted.Keeps c (c.override o).2 := by
    have := o.accepted.keeps_override c
    rwa [hsame] at this
  have hcases := Overrides.accepted_of_refusal? ((congrArg Prod.fst (override_eq c o)).symm.trans h)
  refine ⟨hsame, hcases, hkeeps, ?_, ?_⟩
  · have hlevel : o.accepted.logLevel = none := by
      rcases hcases with ⟨-, -, haccepted⟩ | ⟨-, -, haccepted⟩
      · rw [haccepted]
        rfl
      · rw [haccepted]
    rw [hkeeps.logging, hkeeps.level hlevel]
  · intro hnone
    rw [hnone, override_none] at hsame
    exact (congrArg Prod.snd hsame).symm

/-- The text for the headers is refused between the exchange and the
servers. -/
theorem override_of_refused_headers :
    let o : Overrides := { Overrides.none with
      exchange := some "telemetry", addHeaders := some "maybe", serverList := some "a:9092" }
    let e : ConfigError := ⟨.invalidValue, .override "add_headers", none⟩
    (default.override o).1 = some e
      ∧ default.override { Overrides.none with exchange := some "telemetry" }
        = (none, (default.override o).2)
      ∧ (default.override o).2.values.clientParameters = default.values.clientParameters := by
  intro o e
  have h : (default.override o).1 = some e := by decide
  obtain ⟨hsame, -, hkeeps, -, -⟩ := override_of_refused h
  exact ⟨h, hsame, hkeeps.parameters rfl⟩

/-- A refused log level does not take the exchange back. -/
theorem refused_override_keeps_exchange :
    let o : Overrides :=
      { Overrides.none with exchange := some "telemetry", logLevel := some "loud" }
    (default.override o).1 = some ⟨.invalidValue, .override "log_level", some .level⟩
      ∧ (default.override o).2.values.publishing.exchange = "telemetry"
      ∧ default.values.publishing.exchange = "metrics" := by
  decide

end Config

end MetricRelay
