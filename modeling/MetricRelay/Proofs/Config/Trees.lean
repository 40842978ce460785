import MetricRelay.Config.Sections
import MetricRelay.Proofs.Tables
import Mathlib.Data.List.Forall2
import Mathlib.Data.List.Induction

/-!
# Where something stands in a tree

A path of names leads from a tree to the values that stand there (`At`),
whatever the order of the members on the way. Where no name stands twice
there is one such value, and reading the last member of each name finds it
(`find?_eq_some_iff`). A change that spares a path, such as another order
or a further member beside it, leaves what stands there (`Spares.at_iff`).
-/

namespace MetricRelay.Config

namespace Tree

/-! ## Members -/

section Members

variable {ν : Type} {ms : List (String × ν)} {name : String} {v : ν}

/-- No name stands twice. -/
def Distinct (ms : List (String × ν)) : Prop := (ms.map Prod.fst).Nodup

theorem lastMember?_concat (name : String) (ms : List (String × ν)) (m : String × ν) :
    lastMember? name (ms ++ [m]) = if m.1 = name then some m.2 else lastMember? name ms := by
  rw [lastMember?, List.foldl_append]
  rfl

theorem lastMember?_eq_some_iff (h : Distinct ms) :
    lastMember? name ms = some v ↔ (name, v) ∈ ms := by
  induction ms using List.reverseRecOn with
  | nil => simp [lastMember?]
  | append_singleton ms m ih =>
    obtain ⟨key, value⟩ := m
    rw [Distinct, List.map_append, List.nodup_append] at h
    obtain ⟨hms, -, hapart⟩ := h
    rw [lastMember?_concat, List.mem_append, List.mem_singleton]
    split
    · next hname =>
      subst hname
      have hnew : (key, v) ∉ ms := fun hmem =>
        hapart key (List.mem_map_of_mem hmem) key (List.mem_singleton_self _) rfl
      simp [hnew, eq_comm]
    · next hname => simp [ih hms, Ne.symm hname]

end Members

/-! ## Paths -/

section Paths

/-- A value stands where a path leads. -/
def At : (path : List String) → Tree → Tree → Prop
  | [], t, v => t = v
  | name :: path, t, v => ∃ ms u, t = record ms ∧ (name, u) ∈ ms ∧ At path u v

/-- Wherever a path leads through there is a record in which no name stands
twice. -/
def Leads : (path : List String) → Tree → Prop
  | [], _ => True
  | name :: path, t => ∃ ms, t = record ms ∧ Distinct ms ∧ ∀ u, (name, u) ∈ ms → Leads path u

/-- The value that is found by the last member of each name of a path. -/
def find? : (path : List String) → Tree → Option Tree
  | [], t => some t
  | name :: path, record ms => (lastMember? name ms).bind (find? path)
  | _ :: _, _ => none

variable {name : String} {path : List String} {t t' u w : Tree} {members : List (String × Tree)}

theorem at_record : (record members).At (name :: path) w
    ↔ ∃ u, (name, u) ∈ members ∧ u.At path w := by
  constructor
  · rintro ⟨_, u, ⟨⟩, hmem, hat⟩
    exact ⟨u, hmem, hat⟩
  · rintro ⟨u, hmem, hat⟩
    exact ⟨members, u, rfl, hmem, hat⟩

theorem find?_eq_some_iff (h : t.Leads path) : t.find? path = some w ↔ t.At path w := by
  induction path generalizing t with
  | nil => exact Option.some_inj
  | cons name path ih =>
    obtain ⟨ms, rfl, hdistinct, hleads⟩ := h
    rw [find?, Option.bind_eq_some_iff, at_record]
    refine exists_congr fun u => ?_
    rw [lastMember?_eq_some_iff hdistinct]
    exact and_congr_right fun hmem => ih (hleads u hmem)

end Paths

/-! ## Changes beside a path -/

/-- The second tree arises from the first one by changes beside a path:
members change places, members of other names come in, and so do members
that hold nothing; the same happens further down the path, and any of it
may be undone. -/
inductive Spares : (path : List String) → Tree → Tree → Prop where
  | order {name path ms ms'} (h : ms.Perm ms') : Spares (name :: path) (record ms) (record ms')
  | other {name path ms} (other : String) (v : Tree) (h : other ≠ name) :
    Spares (name :: path) (record ms) (record ((other, v) :: ms))
  | bare {name next path ms} :
    Spares (name :: next :: path) (record ms) (record ((name, record []) :: ms))
  | within {name path ms v v'} (h : Spares path v v') :
    Spares (name :: path) (record ((name, v) :: ms)) (record ((name, v') :: ms))
  | undone {path t t'} (h : Spares path t t') : Spares path t' t
  | further {path t t' t''} (h : Spares path t t') (h' : Spares path t' t'') : Spares path t t''

variable {name next : String} {path : List String} {t t' v v' : Tree} {ms : List (String × Tree)}

/-- What stands where a path leads is not touched by changes beside it. -/
theorem Spares.at_iff (h : Spares path t t') (w : Tree) : t.At path w ↔ t'.At path w := by
  induction h generalizing w with
  | order h =>
    rw [at_record, at_record]
    exact exists_congr fun u => and_congr_left fun _ => h.mem_iff
  | other other v h =>
    rw [at_record, at_record]
    refine exists_congr fun u => and_congr_left fun _ => ?_
    simp [Ne.symm h]
  | bare =>
    rw [at_record, at_record]
    refine exists_congr fun u => ?_
    rw [List.mem_cons, or_and_right, iff_or_self]
    rintro ⟨⟨⟩, hat⟩
    obtain ⟨_, hnone, -⟩ := at_record.mp hat
    cases hnone
  | within h ih =>
    rw [at_record, at_record]
    simp only [List.mem_cons, Prod.mk.injEq, true_and, or_and_right, exists_or, exists_eq_left, ih]
  | undone h ih => exact (ih w).symm
  | further h h' ih ih' => exact (ih w).trans (ih' w)

/-- What changes under one name matters to paths of this name only. -/
theorem Spares.under (h : name = next → Spares path v v') :
    Spares (next :: path) (record ((name, v) :: ms)) (record ((name, v') :: ms)) := by
  by_cases hname : name = next
  · subst hname
    exact .within (h rfl)
  · exact .further (.undone (.other name v hname)) (.other name v' hname)

end Tree

/-! ## Lists and texts under names -/

theorem mapM_eq_some_of_forall₂ {α β : Type} {f : α → Option β} {as : List α} {bs : List β}
    (h : List.Forall₂ (fun a b => f a = some b) as bs) : as.mapM f = some bs := by
  induction h with
  | nil => rfl
  | cons hhead _ ih =>
    rw [List.mapM_cons, hhead, ih]
    rfl

/-- A table made of pairs holds under each name what stands last under it. -/
theorem get?_ofList {α : Type} (pairs : List (String × α)) (name : String) :
    (Table.ofList pairs).get? name = Tree.lastMember? name pairs := by
  induction pairs using List.reverseRecOn with
  | nil => rfl
  | append_singleton pairs p ih =>
    have hlast : Table.ofList (pairs ++ [p]) = (Table.ofList pairs).insert p.1 p.2 := by
      rw [Table.ofList, List.foldl_append]
      rfl
    rw [hlast, Table.get?_insert, Tree.lastMember?_concat, ih]
    simp only [eq_comm]

end MetricRelay.Config
