import MetricRelay.Table
import Mathlib.Data.List.Forall2

/-!
# Listings of tables

What is listed of a table and what is looked up in it agree.
-/

namespace MetricRelay

namespace Table

universe u

variable {α : Type u} {t : Table α} {name : String} {value : α}

theorem mem_names_iff : name ∈ t.names ↔ (t.get? name).isSome := by
  rw [Option.isSome_iff_exists]
  constructor
  · intro h
    obtain ⟨⟨key, value⟩, he, rfl⟩ := List.mem_map.mp h
    exact ⟨value, get?_eq_some_iff.mpr he⟩
  · rintro ⟨value, h⟩
    exact List.mem_map.mpr ⟨_, get?_eq_some_iff.mp h, rfl⟩

theorem nodup_names (t : Table α) : t.names.Nodup := by
  have hsorted : t.names.Pairwise (· < ·) := List.pairwise_map.mpr t.sorted
  refine hsorted.imp ?_
  rintro name _ hlt rfl
  exact String.lt_irrefl name hlt

theorem mem_values_iff : value ∈ t.values ↔ ∃ name, t.get? name = some value := by
  constructor
  · intro h
    obtain ⟨⟨name, value⟩, he, rfl⟩ := List.mem_map.mp h
    exact ⟨name, get?_eq_some_iff.mpr he⟩
  · rintro ⟨name, h⟩
    exact List.mem_map.mpr ⟨_, get?_eq_some_iff.mp h, rfl⟩

/-- The names and the values that are listed belong together in pairs. -/
theorem forall₂_get? (t : Table α) :
    List.Forall₂ (fun name value => t.get? name = some value) t.names t.values := by
  rw [names, values, List.forall₂_map_left_iff, List.forall₂_map_right_iff, List.forall₂_same]
  exact fun e he => get?_eq_some_iff.mpr he

theorem get?_insert (t : Table α) (name other : String) (value : α) :
    (t.insert name value).get? other = if other = name then some value else t.get? other := by
  split
  · next h => rw [h, get?_insert_self]
  · next h => exact get?_insert_of_ne h t value

theorem get?_erase (t : Table α) (name other : String) :
    (t.erase name).get? other = if other = name then none else t.get? other := by
  split
  · next h => rw [h, get?_erase_self]
  · next h => exact get?_erase_of_ne h t

/-- A look-up finds the inserted entry first, because a sorted list has no
second entry of the name. -/
theorem get?_foldl_insert {es : List (String × α)} (hes : es.Pairwise fun a b => a.1 < b.1)
    (t : Table α) (name : String) :
    (es.foldl (fun t e => t.insert e.1 e.2) t).get? name
      = (es.lookup name).or (t.get? name) := by
  induction es generalizing t with
  | nil => rfl
  | cons e es ih =>
    obtain ⟨hhead, htail⟩ := List.pairwise_cons.mp hes
    rw [List.foldl_cons, ih htail, get?_insert, List.lookup_cons]
    by_cases h : name = e.1
    · have hnone : es.lookup name = none := by
        rw [Option.eq_none_iff_forall_ne_some]
        intro value hvalue
        have hlt := hhead _ ((lookup_eq_some_iff htail).mp hvalue)
        exact String.lt_irrefl _ (h ▸ hlt)
      rw [hnone, if_pos h, beq_iff_eq.mpr h]
      rfl
    · rw [if_neg h, beq_false_of_ne h]

theorem get?_insertAll (t other : Table α) (name : String) :
    (t.insertAll other).get? name = (other.get? name).or (t.get? name) :=
  get?_foldl_insert other.sorted t name

end Table

end MetricRelay
