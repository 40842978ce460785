import MetricRelay.Aggregate
import MetricRelay.Proofs.Names
import MetricRelay.Proofs.Tables
import Mathlib.Data.List.Induction

/-!
# Aggregates are made group by group

The table of aggregates is filled metric by metric, yet what it holds
under a key depends on the metrics with that key alone: it is these
metrics, in order, combined (`get?_aggregates`). Combined counters are a
sum and combined other metrics the first of the latest ones; both are
kept by one more metric, and hence hold of any number.
-/

namespace MetricRelay

namespace Aggregator

variable {a : Aggregator} {key : String}

/-- The metrics with a key. -/
def group (a : Aggregator) (key : String) (sources : List Metric) : List Metric :=
  sources.filter fun m => a.pattern.keyFor? m.name = some key

/-- Whether there is a metric with a key is a matter of names. -/
theorem group_ne_nil_congr (a : Aggregator) (key : String) {sources sources' : List Metric}
    (h : ∀ name, (∃ m ∈ sources, m.name = name) ↔ ∃ m ∈ sources', m.name = name) :
    a.group key sources ≠ [] ↔ a.group key sources' ≠ [] := by
  have hgroup : ∀ ms : List Metric, a.group key ms ≠ []
      ↔ ∃ name, (∃ m ∈ ms, m.name = name) ∧ a.pattern.keyFor? name = some key := by
    intro ms
    rw [group, Ne, List.filter_eq_nil_iff]
    simp only [decide_eq_true_eq, not_forall, not_not, exists_prop]
    constructor
    · rintro ⟨m, hm, hkey⟩
      exact ⟨m.name, ⟨m, hm, rfl⟩, hkey⟩
    · rintro ⟨_, ⟨m, hm, rfl⟩, hkey⟩
      exact ⟨m, hm, hkey⟩
  simp only [hgroup, h]

/-- The metrics of a group combined. -/
def combined? (a : Aggregator) (key : String) : List Metric → Option Metric
  | [] => none
  | m :: ms =>
    some (ms.foldl (combine (Family.of? key == some .counter))
      { m with name := a.beginning ++ key })

theorem combined?_append_singleton (ms : List Metric) (m : Metric) :
    a.combined? key (ms ++ [m]) = some (match a.combined? key ms with
      | none => { m with name := a.beginning ++ key }
      | some x => combine (Family.of? key == some .counter) x m) := by
  cases ms with
  | nil => rfl
  | cons n ms =>
    rw [List.cons_append, combined?, combined?, List.foldl_append]
    rfl

theorem get?_add (aggregates : Table Metric) (added key : String) (m : Metric) :
    (a.add aggregates added m).get? key
      = if key = added then some (match aggregates.get? added with
          | none => { m with name := a.beginning ++ added }
          | some x => combine (Family.of? added == some .counter) x m)
        else aggregates.get? key := by
  unfold add
  cases aggregates.get? added <;> exact Table.get?_insert aggregates added key _

theorem aggregates_append_singleton (sources : List Metric) (m : Metric) :
    a.aggregates (sources ++ [m]) = match a.pattern.keyFor? m.name with
      | none => a.aggregates sources
      | some key => a.add (a.aggregates sources) key m := by
  unfold aggregates
  rw [List.foldl_append]
  rfl

theorem get?_aggregates (a : Aggregator) (sources : List Metric) (key : String) :
    (a.aggregates sources).get? key = a.combined? key (a.group key sources) := by
  induction sources using List.reverseRecOn with
  | nil => rfl
  | append_singleton sources m ih =>
    have hgroup : a.group key (sources ++ [m]) = a.group key sources
        ++ if a.pattern.keyFor? m.name = some key then [m] else [] := by
      rw [group, List.filter_append, List.filter_cons]
      simp only [decide_eq_true_eq]
      rfl
    rw [aggregates_append_singleton, hgroup]
    cases hkey : a.pattern.keyFor? m.name with
    | none =>
      rw [if_neg (by simp), List.append_nil]
      exact ih
    | some added =>
      dsimp only
      rw [get?_add]
      by_cases h : key = added
      · subst h
        rw [if_pos rfl, if_pos rfl, combined?_append_singleton, ih]
      · rw [if_neg h, if_neg (by simpa using Ne.symm h), List.append_nil]
        exact ih

theorem find?_beginning (a : Aggregator) (sources : List Metric) (key : String) :
    a.find? sources (a.beginning ++ key)
      = (a.combined? key (a.group key sources), a.trail sources) := by
  rw [find?, Text.stripBeginning?_append]
  dsimp only
  rw [get?_aggregates]

/-- What is listed is what is found under the names of aggregates. -/
theorem mem_all_iff {sources : List Metric} {x : Metric} :
    x ∈ (a.all sources).1 ↔ ∃ key, (a.find? sources (a.beginning ++ key)).1 = some x := by
  refine Table.mem_values_iff.trans (exists_congr fun key => ?_)
  rw [find?_beginning, get?_aggregates]

/-! ## Sums and latest readings -/

/-- The sum from left to right. -/
def sum : List Float → Float
  | [] => 0
  | x :: xs => xs.foldl (· + ·) x

/-- The sum of readings at the time of the latest one. -/
structure IsSum (ms : List Metric) (x : Metric) : Prop where
  value : x.value = sum (ms.map (·.value))
  observed : ∃ m ∈ ms, x.observed = m.observed
  newest : ∀ m ∈ ms, m.observed.nanos ≤ x.observed.nanos

/-- The latest reading, the first one where several are latest. -/
def IsLatest (ms : List Metric) (x : Metric) : Prop :=
  ∃ before m after, ms = before ++ m :: after ∧ x.value = m.value ∧ x.observed = m.observed
    ∧ (∀ n ∈ before, n.observed.nanos < x.observed.nanos)
    ∧ ∀ n ∈ after, n.observed.nanos ≤ x.observed.nanos

variable {ms : List Metric} {m x : Metric}

theorem sum_append_singleton {xs : List Float} (hxs : xs ≠ []) (x : Float) :
    sum (xs ++ [x]) = sum xs + x := by
  obtain ⟨y, ys, rfl⟩ := List.exists_cons_of_ne_nil hxs
  rw [List.cons_append, sum, sum, List.foldl_append]
  rfl

theorem IsSum.combine (h : IsSum ms x) (m : Metric) :
    IsSum (ms ++ [m]) (Aggregator.combine true x m) := by
  obtain ⟨n, hn, hobserved⟩ := h.observed
  have hlatest : (Aggregator.combine true x m).observed
      = if x.observed.nanos < m.observed.nanos then m.observed else x.observed := rfl
  refine ⟨?_, ?_, ?_⟩
  · have hne : ms.map (·.value) ≠ [] := List.ne_nil_of_mem (List.mem_map_of_mem hn)
    rw [List.map_append, List.map_singleton, sum_append_singleton hne, ← h.value]
    rfl
  · rw [hlatest]
    split
    · exact ⟨m, by simp, rfl⟩
    · exact ⟨n, List.mem_append_left _ hn, hobserved⟩
  · intro k hk
    rw [hlatest]
    rcases List.mem_append.mp hk with hk | hk
    · have hle := h.newest k hk
      split <;> omega
    · obtain rfl := List.mem_singleton.mp hk
      split <;> omega

theorem IsLatest.combine (h : IsLatest ms x) (m : Metric) :
    IsLatest (ms ++ [m]) (Aggregator.combine false x m) := by
  obtain ⟨before, n, after, rfl, hvalue, hobserved, hbefore, hafter⟩ := h
  by_cases hlater : x.observed.nanos < m.observed.nanos
  · -- the new reading is later than all so far
    have hcombine : Aggregator.combine false x m
        = { x with value := m.value, observed := m.observed } := if_pos (decide_eq_true hlater)
    refine ⟨before ++ n :: after, m, [], rfl, ?_, ?_, ?_, by simp⟩
    · rw [hcombine]
    · rw [hcombine]
    · rw [hcombine]
      intro k hk
      rcases List.mem_append.mp hk with hk | hk
      · exact Int.lt_trans (hbefore k hk) hlater
      · rcases List.mem_cons.mp hk with rfl | hk
        · rwa [← hobserved]
        · exact Int.lt_of_le_of_lt (hafter k hk) hlater
  · have hearlier : ¬ m.observed.isAfter x.observed := by simpa [Instant.isAfter] using hlater
    have hcombine : Aggregator.combine false x m = x := if_neg hearlier
    rw [hcombine]
    refine ⟨before, n, after ++ [m], by simp, hvalue, hobserved, hbefore, ?_⟩
    intro k hk
    rcases List.mem_append.mp hk with hk | hk
    · exact hafter k hk
    · obtain rfl := List.mem_singleton.mp hk
      exact Int.not_lt.mp hlater

/-- What an aggregate is of the metrics in its group. -/
structure Combines (a : Aggregator) (key : String) (ms : List Metric) (x : Metric) : Prop where
  name : x.name = a.beginning ++ key
  reading : if Text.startsWith key "counter." then IsSum ms x else IsLatest ms x

theorem of?_beq_counter (key : String) :
    (Family.of? key == some .counter) = Text.startsWith key "counter." := by
  have hiff : Family.of? key = some .counter ↔ Text.startsWith key "counter." :=
    Family.of?_eq_some_iff
  exact Bool.eq_iff_iff.mpr (beq_iff_eq.trans hiff)

theorem Combines.first (a : Aggregator) (key : String) (m : Metric) :
    Combines a key [m] { m with name := a.beginning ++ key } := by
  refine ⟨rfl, ?_⟩
  split
  · exact ⟨rfl, ⟨m, by simp, rfl⟩, by simp⟩
  · exact ⟨[], m, [], rfl, rfl, rfl, by simp, by simp⟩

theorem Combines.combine (h : Combines a key ms x) (m : Metric) :
    Combines a key (ms ++ [m]) (Aggregator.combine (Family.of? key == some .counter) x m) := by
  obtain ⟨hname, hreading⟩ := h
  rw [of?_beq_counter]
  cases hcounter : Text.startsWith key "counter." with
  | true =>
    rw [if_pos hcounter] at hreading
    refine ⟨hname, ?_⟩
    rw [if_pos hcounter]
    exact hreading.combine m
  | false =>
    have hneg : ¬ Text.startsWith key "counter." := by simp [hcounter]
    rw [if_neg hneg] at hreading
    refine ⟨?_, ?_⟩
    · rw [← hname]
      unfold Aggregator.combine
      split <;> [rfl; split <;> rfl]
    · rw [if_neg hneg]
      exact hreading.combine m

theorem combined?_eq_none_iff : a.combined? key ms = none ↔ ms = [] := by
  cases ms <;> simp [combined?]

theorem combines_of_combined? (h : a.combined? key ms = some x) : Combines a key ms x := by
  induction ms using List.reverseRecOn generalizing x with
  | nil => cases h
  | append_singleton ms m ih =>
    rw [combined?_append_singleton, Option.some.injEq] at h
    cases hms : a.combined? key ms with
    | none =>
      rw [hms] at h
      obtain rfl := combined?_eq_none_iff.mp hms
      exact h ▸ .first a key m
    | some y =>
      rw [hms] at h
      exact h ▸ (ih hms).combine m

end Aggregator

end MetricRelay
