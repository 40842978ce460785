import MetricRelay.Proofs.Tables
import MetricRelay.Repository
import Mathlib.Data.List.Induction

/-!
# What a repository stores

Every write leaves each metric under its own name (`Keyed`), so the
listing of a repository and its look-ups say the same: the listing is in
the order of the names, and a metric is listed just when it is found
under its name.
-/

namespace MetricRelay

namespace Repository

variable {r : Repository} {m : Metric} {name : String}

/-- Each metric is stored under its own name. -/
def Keyed (r : Repository) : Prop :=
  ∀ name m, r.find? name = some m → m.name = name

theorem find?_increment (r : Repository) (d : Delta) (name : String) :
    (r.increment d).find? name = if name = d.name then
        some (match r.find? d.name with
          | some m => changed m d
          | none => d.change)
      else r.find? name := by
  unfold increment find?
  cases r.stored.get? d.name <;> exact Table.get?_insert r.stored d.name name _

theorem find?_record (r : Repository) (m : Metric) (name : String) :
    (r.record m).find? name = if name = m.name then some m else r.find? name :=
  Table.get?_insert r.stored m.name name m

theorem find?_reset (r : Repository) (key name : String) :
    (r.reset key).find? name = if name = key then none else r.find? name :=
  Table.get?_erase r.stored key name

theorem keyed_empty : Keyed empty := fun _ _ h => nomatch h

theorem Keyed.write (h : r.Keyed) (w : Write) : (r.write w).Keyed := by
  intro name n hn
  cases w with
  | record m =>
    rw [Repository.write, find?_record] at hn
    split at hn
    · next heq =>
      cases hn
      exact heq.symm
    · exact h name n hn
  | increment d =>
    rw [Repository.write, find?_increment] at hn
    split at hn
    · next heq =>
      cases hn
      cases hd : r.find? d.name with
      | some m => exact (h d.name m hd).trans heq.symm
      | none => exact heq.symm
    · exact h name n hn
  | reset key asked =>
    rw [Repository.write, find?_reset] at hn
    split at hn
    · cases hn
    · exact h name n hn

theorem Keyed.mem_all_iff (h : r.Keyed) : m ∈ r.all ↔ r.find? m.name = some m := by
  constructor
  · intro hm
    obtain ⟨⟨name, n⟩, hentry, rfl⟩ := List.mem_map.mp hm
    have hfind : r.find? name = some n := Table.get?_eq_some_iff.mpr hentry
    rw [h name n hfind]
    exact hfind
  · intro hm
    exact List.mem_map.mpr ⟨_, Table.get?_eq_some_iff.mp hm, rfl⟩

theorem Keyed.exists_mem_all_iff (h : r.Keyed) :
    (∃ m ∈ r.all, m.name = name) ↔ (r.find? name).isSome := by
  rw [Option.isSome_iff_exists]
  constructor
  · rintro ⟨m, hm, rfl⟩
    exact ⟨m, h.mem_all_iff.mp hm⟩
  · rintro ⟨m, hm⟩
    obtain rfl := h name m hm
    exact ⟨m, h.mem_all_iff.mpr hm, rfl⟩

theorem Keyed.pairwise_all (h : r.Keyed) : r.all.Pairwise fun m n => m.name < n.name := by
  refine List.pairwise_map.mpr (r.stored.sorted.imp_of_mem ?_)
  intro e f he hf hlt
  rw [h e.1 e.2 (Table.get?_eq_some_iff.mpr he), h f.1 f.2 (Table.get?_eq_some_iff.mpr hf)]
  exact hlt

/-! ## Records only -/

variable (ms : List Metric)

theorem keyed_foldl_record : (ms.foldl record empty).Keyed := by
  induction ms using List.reverseRecOn with
  | nil => exact keyed_empty
  | append_singleton ms m ih =>
    rw [List.foldl_append]
    exact ih.write (.record m)

theorem find?_foldl_record (name : String) :
    (ms.foldl record empty).find? name = (ms.filter (·.name = name)).getLast? := by
  induction ms using List.reverseRecOn with
  | nil => rfl
  | append_singleton ms m ih =>
    rw [List.foldl_append, List.foldl_cons, List.foldl_nil, find?_record, List.filter_append]
    by_cases h : m.name = name
    · have hlast : [m].filter (·.name = name) = [m] := by simp [h]
      rw [if_pos h.symm, hlast, List.getLast?_concat]
    · have hlast : [m].filter (·.name = name) = [] := by simp [h]
      rw [if_neg (Ne.symm h), hlast, List.append_nil]
      exact ih

theorem isSome_find?_foldl_record (name : String) :
    ((ms.foldl record empty).find? name).isSome ↔ ∃ m ∈ ms, m.name = name := by
  rw [find?_foldl_record, List.getLast?_isSome, Ne, List.filter_eq_nil_iff]
  simp

end Repository

end MetricRelay
