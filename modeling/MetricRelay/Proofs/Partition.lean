import MetricRelay.Proofs.Grouping
import Mathlib.Data.List.Dedup
import Mathlib.Data.List.Sort

/-!
# Aggregates partition the metrics

Reading an aggregator groups the metrics of its source. The declarative
side is the list of distinct keys (`keys`), for each key its group, and
the metrics that have no key (`keyless`); put together they are the
metrics of the source, each of them once (`groups_perm`). The table that
the aggregator fills lists one aggregate per key, in the same order
(`names_aggregates`), so its entries are the groups combined
(`entries_are_groups`).
-/

namespace MetricRelay

namespace Aggregator

/-- The distinct keys of metrics, in order. -/
def keys (a : Aggregator) (sources : List Metric) : List String :=
  (sources.filterMap fun m => a.pattern.keyFor? m.name).dedup.insertionSort (· ≤ ·)

/-- The metrics without a key. -/
def keyless (a : Aggregator) (sources : List Metric) : List Metric :=
  sources.filter fun m => a.pattern.keyFor? m.name = none

variable {a : Aggregator} {sources : List Metric} {key : String}

/-! ## Keys -/

theorem mem_keys : key ∈ a.keys sources ↔ ∃ m ∈ sources, a.pattern.keyFor? m.name = some key := by
  rw [keys, List.mem_insertionSort, List.mem_dedup, List.mem_filterMap]

theorem nodup_keys (a : Aggregator) (sources : List Metric) : (a.keys sources).Nodup :=
  (List.perm_insertionSort _ _).nodup_iff.mpr (List.nodup_dedup _)

theorem pairwise_keys (a : Aggregator) (sources : List Metric) :
    (a.keys sources).Pairwise (· < ·) := by
  have htotal : Std.Total fun s t : String => s ≤ t := ⟨String.le_total⟩
  have htrans : IsTrans String fun s t => s ≤ t := ⟨fun _ _ _ => String.le_trans⟩
  have hle : (a.keys sources).Pairwise (· ≤ ·) := List.pairwise_insertionSort _ _
  refine (hle.and (nodup_keys a sources)).imp fun {s t} h => String.not_le.mp fun hge => ?_
  exact h.2 (String.le_antisymm h.1 hge)

theorem group_ne_nil : a.group key sources ≠ [] ↔ key ∈ a.keys sources := by
  rw [mem_keys, Ne, group, List.filter_eq_nil_iff]
  simp

/-- The table of aggregates has an entry under each key and no other. -/
theorem names_aggregates (a : Aggregator) (sources : List Metric) :
    (a.aggregates sources).names = a.keys sources := by
  have hnames : (a.aggregates sources).names.Pairwise (· < ·) :=
    List.pairwise_map.mpr (a.aggregates sources).sorted
  refine Table.eq_of_ascending id hnames (pairwise_keys a sources) fun key => ?_
  rw [Table.mem_names_iff, get?_aggregates, ← group_ne_nil, ← Option.ne_none_iff_isSome]
  exact not_congr combined?_eq_none_iff

/-! ## Groups -/

/-- A list is made up of the elements with each of the keys and of those
without a key. -/
theorem flatMap_filter_perm {α β : Type} [DecidableEq β] (f : α → Option β) {ks : List β}
    (hks : ks.Nodup) {l : List α} (hl : ∀ x ∈ l, ∀ k, f x = some k → k ∈ ks) :
    ((ks.flatMap fun k => l.filter fun x => f x = some k) ++ l.filter fun x => f x = none).Perm
      l := by
  induction ks generalizing l with
  | nil =>
    have hnone : ∀ x ∈ l, f x = none := fun x hx =>
      Option.eq_none_iff_forall_ne_some.mpr fun k hk => List.not_mem_nil (hl x hx k hk)
    rw [List.flatMap_nil, List.nil_append, List.filter_eq_self.mpr (by simpa using hnone)]
  | cons k ks ih =>
    obtain ⟨hk, hks⟩ := List.nodup_cons.mp hks
    -- what is left of the list has keys among the other ones only
    have hrest : ∀ x ∈ l.filter (f · ≠ some k), ∀ j, f x = some j → j ∈ ks := by
      intro x hx j hj
      obtain ⟨hx, hne⟩ := List.mem_filter.mp hx
      rcases List.mem_cons.mp (hl x hx j hj) with rfl | hj'
      · exact absurd hj (of_decide_eq_true hne)
      · exact hj'
    have hkeyed : ∀ j ∈ ks, (l.filter (f · ≠ some k)).filter (fun x => f x = some j)
        = l.filter fun x => f x = some j := by
      intro j hj
      rw [List.filter_filter]
      refine List.filter_congr fun x _ => ?_
      have hne : j ≠ k := fun h => hk (h ▸ hj)
      by_cases hx : f x = some j <;> simp [hx, hne]
    have hkeyless : (l.filter (f · ≠ some k)).filter (fun x => f x = none)
        = l.filter fun x => f x = none := by
      rw [List.filter_filter]
      refine List.filter_congr fun x _ => ?_
      by_cases hx : f x = none <;> simp [hx]
    have hperm := ih hks hrest
    rw [hkeyless, List.flatMap_congr hkeyed] at hperm
    rw [List.flatMap_cons, List.append_assoc]
    refine (hperm.append_left _).trans ?_
    have hsplit := List.filter_append_perm (fun x => decide (f x = some k)) l
    simpa only [decide_not] using hsplit

theorem groups_perm (a : Aggregator) (sources : List Metric) :
    ((a.keys sources).flatMap (a.group · sources) ++ a.keyless sources).Perm sources := by
  have hkeys : ∀ m ∈ sources, ∀ key, a.pattern.keyFor? m.name = some key → key ∈ a.keys sources :=
    fun m hm key hkey => mem_keys.mpr ⟨m, hm, hkey⟩
  have hperm := flatMap_filter_perm (fun m : Metric => a.pattern.keyFor? m.name)
    (nodup_keys a sources) hkeys
  unfold group keyless
  exact hperm

/-! ## Entries -/

theorem trail_eq (a : Aggregator) (sources : List Metric) :
    a.trail sources = ⟨List.replicate (a.keyless sources).length .skipped, []⟩ := by
  have hnone : ∀ m : Metric, (a.pattern.keyFor? m.name).isNone
      = decide (a.pattern.keyFor? m.name = none) := fun m => by
    cases a.pattern.keyFor? m.name <;> rfl
  rw [trail, keyless, List.map_const']
  simp only [hnone]

theorem find?_eq_some_iff {name : String} {x : Metric} :
    (a.find? sources name).1 = some x
      ↔ ∃ key, name = a.beginning ++ key ∧ (a.aggregates sources).get? key = some x := by
  unfold find?
  cases hstrip : Text.stripBeginning? name a.beginning with
  | none =>
    refine iff_of_false nofun ?_
    rintro ⟨key, hname, -⟩
    rw [Text.stripBeginning?_eq_some_iff.mpr hname] at hstrip
    cases hstrip
  | some key =>
    rw [Text.stripBeginning?_eq_some_iff] at hstrip
    constructor
    · intro h
      exact ⟨key, hstrip, h⟩
    · rintro ⟨other, hname, h⟩
      obtain rfl := (String.append_right_inj _).mp (hstrip.symm.trans hname)
      exact h

theorem trail_find? (a : Aggregator) (sources : List Metric) (name : String) :
    (a.find? sources name).2
      = if Text.startsWith name a.beginning then a.trail sources else .none := by
  rw [← Text.isSome_stripBeginning?, find?]
  cases Text.stripBeginning? name a.beginning <;> rfl

/-- The aggregates are the groups of the metrics, one for each distinct
key, combined under the key's name; every metric is in one group or,
without a key, left out and measured, once by every read that computes
aggregates, which no look-up of another name does. -/
theorem entries_are_groups (a : Aggregator) (sources : List Metric) :
    List.Forall₂ (fun key x => Combines a key (a.group key sources) x)
        (a.keys sources) (a.all sources).1
      ∧ (a.keys sources).Nodup
      ∧ (∀ key, key ∈ a.keys sources ↔ ∃ m ∈ sources, a.pattern.keyFor? m.name = some key)
      ∧ ((a.keys sources).flatMap (a.group · sources) ++ a.keyless sources).Perm sources
      ∧ (a.count sources).1 = (a.keys sources).length
      ∧ (∀ name x, (a.find? sources name).1 = some x
          ↔ ∃ key, name = a.beginning ++ key ∧ (key, x) ∈ (a.keys sources).zip (a.all sources).1)
      ∧ let skipped : Trail := ⟨List.replicate (a.keyless sources).length .skipped, []⟩
        (a.all sources).2 = skipped ∧ (a.count sources).2 = skipped
          ∧ ∀ name, (a.find? sources name).2
            = if Text.startsWith name a.beginning then skipped else .none := by
  have hentries := (a.aggregates sources).forall₂_get?
  rw [names_aggregates] at hentries
  refine ⟨?_, nodup_keys a sources, fun key => mem_keys, groups_perm a sources, ?_, ?_, ?_⟩
  · refine hentries.imp fun key x hx => ?_
    rw [get?_aggregates] at hx
    exact combines_of_combined? hx
  · rw [← names_aggregates, Table.names, List.length_map]
    rfl
  · intro name x
    have hzip : (a.keys sources).zip (a.all sources).1 = (a.aggregates sources).entries := by
      rw [← names_aggregates]
      exact (List.zip_of_prod rfl rfl).symm
    rw [hzip, find?_eq_some_iff]
    exact exists_congr fun key => and_congr_right fun _ => Table.get?_eq_some_iff
  · intro skipped
    have htrail : a.trail sources = skipped := trail_eq a sources
    refine ⟨htrail, htrail, fun name => ?_⟩
    rw [trail_find?, htrail]

end Aggregator

end MetricRelay
