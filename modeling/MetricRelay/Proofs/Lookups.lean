import MetricRelay.Proofs.ByteOrder
import MetricRelay.Proofs.Partition

/-!
# Looking aggregates up and listing them

A look-up strips the beginning of a name and goes by the key that is
left, a listing goes by the keys and never looks at a name. They agree
because every aggregate is named after its key (`name_of_get?`), and the
listing ascends by names because a beginning put before two keys does not
change their order (`encode_append_lt`).
-/

namespace MetricRelay

theorem Utf8.encode_append_lt (p : String) {s t : String} (h : s < t) :
    encode (p ++ s) < encode (p ++ t) := by
  have happend : ∀ u, encode (p ++ u) = encode p ++ encode u := fun u => by
    rw [encode, String.toList_append, List.flatMap_append]
    rfl
  rw [happend, happend]
  exact List.append_left_lt (encode_lt_iff.mpr h)

namespace Aggregator

variable {a : Aggregator} {sources : List Metric} {key : String} {x : Metric}

theorem name_of_get? (h : (a.aggregates sources).get? key = some x) :
    x.name = a.beginning ++ key := by
  rw [get?_aggregates] at h
  exact (combines_of_combined? h).name

/-- What is found under a name is what is listed with this name. -/
theorem find?_eq_some_iff_mem {name : String} :
    (a.find? sources name).1 = some x ↔ x ∈ (a.all sources).1 ∧ x.name = name := by
  rw [find?_eq_some_iff]
  constructor
  · rintro ⟨key, rfl, h⟩
    exact ⟨Table.mem_values_iff.mpr ⟨key, h⟩, name_of_get? h⟩
  · rintro ⟨hmem, rfl⟩
    obtain ⟨key, h⟩ := Table.mem_values_iff.mp hmem
    exact ⟨key, name_of_get? h, h⟩

theorem pairwise_all (a : Aggregator) (sources : List Metric) :
    (a.all sources).1.Pairwise fun x y => Utf8.encode x.name < Utf8.encode y.name := by
  refine List.pairwise_map.mpr ?_
  refine (a.aggregates sources).sorted.imp_of_mem fun {d e} hd he hlt => ?_
  rw [name_of_get? (Table.get?_eq_some_iff.mpr hd), name_of_get? (Table.get?_eq_some_iff.mpr he)]
  exact Utf8.encode_append_lt a.beginning hlt

theorem find?_of_not_startsWith {name : String} (h : ¬ Text.startsWith name a.beginning)
    (sources : List Metric) : a.find? sources name = (none, .none) := by
  rw [← Text.isSome_stripBeginning?, Option.not_isSome_iff_eq_none] at h
  rw [find?, h]

/-- A look-up finds just what the listing holds under the name; the
listing ascends by names in the order of their bytes, so that no name
stands twice, and is counted by its length. Every read measures each
metric without a key, but for a look-up of a name that does not begin
like those of aggregates, which comes out empty whatever the source
holds. -/
theorem lookups_match_listing (a : Aggregator) (sources : List Metric) :
    (∀ name x, (a.find? sources name).1 = some x ↔ x ∈ (a.all sources).1 ∧ x.name = name)
      ∧ ((a.all sources).1.Pairwise fun x y => Utf8.encode x.name < Utf8.encode y.name)
      ∧ ((a.all sources).1.map (·.name)).Nodup
      ∧ (a.count sources).1 = (a.all sources).1.length
      ∧ let skipped : Trail := ⟨List.replicate (a.keyless sources).length .skipped, []⟩
        (a.all sources).2 = skipped ∧ (a.count sources).2 = skipped
          ∧ ∀ name, if Text.startsWith name a.beginning then (a.find? sources name).2 = skipped
            else ∀ held, a.find? held name = (none, .none) := by
  have hlength : (a.count sources).1 = (a.all sources).1.length := (List.length_map ..).symm
  refine ⟨fun name x => find?_eq_some_iff_mem, pairwise_all a sources, ?_, hlength, ?_⟩
  · refine List.pairwise_map.mpr ((pairwise_all a sources).imp fun hlt heq => ?_)
    rw [heq] at hlt
    exact List.lt_irrefl _ hlt
  · intro skipped
    have htrail : a.trail sources = skipped := trail_eq a sources
    refine ⟨htrail, htrail, fun name => ?_⟩
    split
    · next h => rw [trail_find?, if_pos h, htrail]
    · next h => exact find?_of_not_startsWith h

end Aggregator

end MetricRelay
