import MetricRelay.Proofs.Config.Overrides
import MetricRelay.Proofs.KeyPatterns

/-!
# Every configuration describes an aggregator

The key pattern of a configuration is checked once, when it is loaded.
The default pattern is one, and no overrides touch it, not even those
that are refused half-way, so it stays one.
-/

namespace MetricRelay

namespace Config

/-- The configurations that there can be: the default one, those that are
loaded, and what overrides make of them, accepted or not. -/
inductive Reachable : Config → Prop where
  | default : Reachable .default
  | ofTree {t : Tree} {c : Config} (h : Config.ofTree t = .ok c) : Reachable c
  | ofFile {ν : Type} [Source ν] {directory : String} {file : File ν} {c : Config}
    (h : Config.ofFile directory file = .ok c) : Reachable c
  | override {c : Config} (hc : Reachable c) (o : Overrides) : Reachable (c.override o).2

/-- The settings of aggregates have a key pattern. -/
def Keyed (c : Config) : Prop := ∃ p, KeyPattern.parse c.values.aggregate.keyPattern = .ok p

theorem keyed_of_check {origin : Origin} {path : String} {v : Values} {c : Config}
    (h : (check origin v).map (fun _ => Config.mk path v) = .ok c) : c.Keyed := by
  unfold check at h
  split at h
  · next p hp =>
    cases h
    exact ⟨p, hp⟩
  · cases h

theorem keyed_default : Keyed .default :=
  ⟨.default, KeyPattern.parse_eq_ok_iff.mpr (by decide)⟩

theorem keyed_of_ofTree {t : Tree} {c : Config} (h : Config.ofTree t = .ok c) : c.Keyed := by
  unfold Config.ofTree at h
  split at h
  · cases h
  · exact keyed_of_check h

theorem keyed_of_ofFile {ν : Type} [Source ν] {directory : String} {file : File ν} {c : Config}
    (h : Config.ofFile directory file = .ok c) : c.Keyed := by
  cases file with
  | missing => cases h
  | unreadable => cases h
  | holding value =>
    dsimp only [Config.ofFile] at h
    split at h
    · cases h
    · exact keyed_of_check h

theorem Keyed.override {c : Config} (hc : c.Keyed) (o : Overrides) : (c.override o).2.Keyed := by
  rw [Keyed, (o.keeps_override c).aggregate]
  exact hc

theorem keyed_of_reachable {c : Config} (hc : Reachable c) : c.Keyed := by
  induction hc with
  | default => exact keyed_default
  | ofTree h => exact keyed_of_ofTree h
  | ofFile h => exact keyed_of_ofFile h
  | override hc o ih => exact ih.override o

/-- The aggregator of a configuration can always be made, and its pattern
is shown as the text that the configuration holds. -/
theorem aggregator_of_reachable {c : Config} (hc : Reachable c) :
    ∃ a, c.values.aggregate.aggregator = .ok a
      ∧ a.beginning = c.values.aggregate.beginning
      ∧ KeyPattern.parse c.values.aggregate.keyPattern = .ok a.pattern
      ∧ a.pattern.display = c.values.aggregate.keyPattern := by
  obtain ⟨p, hp⟩ := keyed_of_reachable hc
  refine ⟨⟨p, c.values.aggregate.beginning⟩, ?_, rfl, hp, KeyPattern.display_of_parse hp⟩
  rw [AggregateSettings.aggregator, hp]
  rfl

/-- Loaded with a pattern of its own, and overridden with a text for the
headers that is refused. -/
theorem aggregator_of_reachable_refused :
    let t : Tree := .record [("aggregate", .record [("key_pattern", .text "k.d")])]
    let o : Overrides := { Overrides.none with addHeaders := some "maybe", exchange := some "x" }
    ∃ c, Config.ofTree t = .ok c ∧ (c.override o).1.isSome
      ∧ ∃ a, (c.override o).2.values.aggregate.aggregator = .ok a
        ∧ a.pattern.display = "k.d" := by
  intro t o
  let c : Config := ⟨"", { Values.default with aggregate := ⟨"aggregate.", "k.d"⟩ }⟩
  have hc : Config.ofTree t = .ok c := rfl
  obtain ⟨a, ha, -, -, hdisplay⟩ :=
    aggregator_of_reachable (c := (c.override o).2) (.override (.ofTree hc) o)
  exact ⟨c, hc, by decide, a, ha, hdisplay⟩

end Config

end MetricRelay
