/-!
# Tables

A `Table α` holds values under names, one per name, in the byte order of
the names. The order is part of the type, so a table is determined by
its look-ups (`Table.ext_get?`) and every listing of it comes out in the
same order, however it was filled.
-/

namespace MetricRelay

universe u v

/-- Values under names, in ascending order of the names. -/
structure Table (α : Type u) where
  /-- Names and values, the least name first. -/
  entries : List (String × α)
  /-- Each name stands once and in order. -/
  sorted : entries.Pairwise fun a b => a.1 < b.1

namespace Table

variable {α : Type u}

/-! ## Lists of entries -/

/-- The entries with `value` under `name`, in place of an older value. -/
def put (name : String) (value : α) : List (String × α) → List (String × α)
  | [] => [(name, value)]
  | e :: es =>
    if name < e.1 then (name, value) :: e :: es
    else if e.1 < name then e :: put name value es
    else (name, value) :: es

theorem mem_put {name : String} {value : α} {es : List (String × α)} {e : String × α}
    (h : e ∈ put name value es) : e = (name, value) ∨ e ∈ es := by
  induction es with
  | nil => simpa [put] using h
  | cons d es ih =>
    simp only [put] at h
    split at h
    · simpa using h
    · split at h
      · rcases List.mem_cons.mp h with rfl | h
        · simp
        · rcases ih h with h | h <;> simp [h]
      · rcases List.mem_cons.mp h with rfl | h <;> simp_all

theorem pairwise_put (name : String) (value : α) {es : List (String × α)}
    (h : es.Pairwise fun a b => a.1 < b.1) :
    (put name value es).Pairwise fun a b => a.1 < b.1 := by
  induction es with
  | nil => simp [put]
  | cons e es ih =>
    obtain ⟨hhead, htail⟩ := List.pairwise_cons.mp h
    simp only [put]
    split
    · rename_i hlt
      refine List.pairwise_cons.mpr ⟨?_, h⟩
      intro d hd
      rcases List.mem_cons.mp hd with rfl | hd
      · exact hlt
      · exact String.lt_trans hlt (hhead d hd)
    · rename_i hnlt
      split
      · rename_i hgt
        refine List.pairwise_cons.mpr ⟨?_, ih htail⟩
        intro d hd
        rcases mem_put hd with rfl | hd
        · exact hgt
        · exact hhead d hd
      · rename_i hngt
        have heq : e.1 = name :=
          String.le_antisymm (String.not_lt.mp hnlt) (String.not_lt.mp hngt)
        refine List.pairwise_cons.mpr ⟨?_, htail⟩
        intro d hd
        exact heq ▸ hhead d hd

/-! ## Tables -/

def empty : Table α := ⟨[], List.Pairwise.nil⟩

instance : Inhabited (Table α) := ⟨empty⟩

/-- The value under `name`. -/
def get? (t : Table α) (name : String) : Option α :=
  t.entries.lookup name

/-- The table with `value` under `name`, in place of an older value. -/
def insert (t : Table α) (name : String) (value : α) : Table α :=
  ⟨put name value t.entries, pairwise_put name value t.sorted⟩

def erase (t : Table α) (name : String) : Table α :=
  ⟨t.entries.filter (·.1 != name), t.sorted.sublist List.filter_sublist⟩

def names (t : Table α) : List String :=
  t.entries.map (·.1)

def values (t : Table α) : List α :=
  t.entries.map (·.2)

def size (t : Table α) : Nat :=
  t.entries.length

/-- The table of the given pairs; of two pairs with one name the later
one stays. -/
def ofList (pairs : List (String × α)) : Table α :=
  pairs.foldl (fun t p => t.insert p.1 p.2) empty

/-- `t` with all entries of `other`, which take precedence. -/
def insertAll (t other : Table α) : Table α :=
  other.entries.foldl (fun t p => t.insert p.1 p.2) t

def map {β : Type v} (f : α → β) (t : Table α) : Table β :=
  ⟨t.entries.map fun e => (e.1, f e.2), List.pairwise_map.mpr t.sorted⟩

instance [BEq α] : BEq (Table α) := ⟨fun s t => s.entries == t.entries⟩

@[ext]
theorem ext {s t : Table α} (h : s.entries = t.entries) : s = t := by
  cases s; cases t; cases h; rfl

/-! ## Look-ups -/

@[simp]
theorem get?_empty (name : String) : (empty : Table α).get? name = none := rfl

theorem lookup_put_self (name : String) (value : α) (es : List (String × α)) :
    (put name value es).lookup name = some value := by
  induction es with
  | nil => simp [put]
  | cons e es ih =>
    obtain ⟨key, old⟩ := e
    simp only [put]
    split
    · simp
    · split
      · rename_i hgt
        have hne : name ≠ key := fun h => String.lt_irrefl _ (h ▸ hgt)
        rw [List.lookup_cons, beq_false_of_ne hne]
        exact ih
      · simp

theorem lookup_put_of_ne {name other : String} (hne : other ≠ name) (value : α)
    (es : List (String × α)) : (put name value es).lookup other = es.lookup other := by
  induction es with
  | nil => simp [put, List.lookup_cons, beq_false_of_ne hne]
  | cons e es ih =>
    obtain ⟨key, old⟩ := e
    simp only [put]
    split
    · rw [List.lookup_cons, beq_false_of_ne hne]
    · rename_i hnlt
      split
      · rw [List.lookup_cons, List.lookup_cons, ih]
      · rename_i hngt
        have heq : key = name :=
          String.le_antisymm (String.not_lt.mp hnlt) (String.not_lt.mp hngt)
        rw [List.lookup_cons, List.lookup_cons, heq, beq_false_of_ne hne]

@[simp]
theorem get?_insert_self (t : Table α) (name : String) (value : α) :
    (t.insert name value).get? name = some value :=
  lookup_put_self name value t.entries

theorem get?_insert_of_ne {name other : String} (hne : other ≠ name) (t : Table α) (value : α) :
    (t.insert name value).get? other = t.get? other :=
  lookup_put_of_ne hne value t.entries

theorem lookup_filter_self (name : String) (es : List (String × α)) :
    (es.filter (·.1 != name)).lookup name = none := by
  induction es with
  | nil => rfl
  | cons e es ih =>
    obtain ⟨key, value⟩ := e
    by_cases h : key = name
    · rw [List.filter_cons_of_neg (by simp [h]), ih]
    · rw [List.filter_cons_of_pos (by simp [h]), List.lookup_cons,
        beq_false_of_ne (Ne.symm h)]
      exact ih

theorem lookup_filter_of_ne {name other : String} (hne : other ≠ name)
    (es : List (String × α)) :
    (es.filter (·.1 != name)).lookup other = es.lookup other := by
  induction es with
  | nil => rfl
  | cons e es ih =>
    obtain ⟨key, value⟩ := e
    by_cases h : key = name
    · rw [List.filter_cons_of_neg (by simp [h]), List.lookup_cons, h,
        beq_false_of_ne hne]
      exact ih
    · rw [List.filter_cons_of_pos (by simp [h]), List.lookup_cons, List.lookup_cons, ih]

@[simp]
theorem get?_erase_self (t : Table α) (name : String) : (t.erase name).get? name = none :=
  lookup_filter_self name t.entries

theorem get?_erase_of_ne {name other : String} (hne : other ≠ name) (t : Table α) :
    (t.erase name).get? other = t.get? other :=
  lookup_filter_of_ne hne t.entries

/-! ## A table is its look-ups -/

theorem lookup_eq_some_iff {es : List (String × α)}
    (h : es.Pairwise fun a b => a.1 < b.1) {name : String} {value : α} :
    es.lookup name = some value ↔ (name, value) ∈ es := by
  induction es with
  | nil => simp
  | cons e es ih =>
    obtain ⟨hhead, htail⟩ := List.pairwise_cons.mp h
    rw [List.lookup_cons]
    by_cases heq : name = e.1
    · subst heq
      simp only [beq_self_eq_true]
      constructor
      · rintro hval
        cases hval
        simp
      · intro hmem
        rcases List.mem_cons.mp hmem with heq | hmem
        · rw [← heq]
        · exact absurd (hhead _ hmem) (String.lt_irrefl _)
    · rw [beq_false_of_ne heq]
      simp only [ih htail, List.mem_cons]
      constructor
      · exact Or.inr
      · rintro (rfl | hmem)
        · exact absurd rfl heq
        · exact hmem

theorem get?_eq_some_iff {t : Table α} {name : String} {value : α} :
    t.get? name = some value ↔ (name, value) ∈ t.entries :=
  lookup_eq_some_iff t.sorted

/-- A list that ascends by keys is determined by its elements. -/
theorem eq_of_ascending {β : Type u} (key : β → String) {xs ys : List β}
    (hxs : xs.Pairwise fun x y => key x < key y) (hys : ys.Pairwise fun x y => key x < key y)
    (h : ∀ z, z ∈ xs ↔ z ∈ ys) : xs = ys := by
  have hnodup : ∀ {zs : List β}, (zs.Pairwise fun x y => key x < key y) → zs.Nodup := by
    intro zs hzs
    refine hzs.imp ?_
    rintro x _ hlt rfl
    exact String.lt_irrefl _ hlt
  have hperm : xs.Perm ys := (List.perm_ext_iff_of_nodup (hnodup hxs) (hnodup hys)).mpr h
  refine hperm.eq_of_pairwise (fun x y _ _ hlt hgt => ?_) hxs hys
  exact absurd (String.lt_trans hlt hgt) (String.lt_irrefl _)

/-- Two tables with the same look-ups are equal. -/
theorem ext_get? {s t : Table α} (h : ∀ name, s.get? name = t.get? name) : s = t := by
  refine Table.ext (eq_of_ascending Prod.fst s.sorted t.sorted fun e => ?_)
  rw [← get?_eq_some_iff (t := s), ← get?_eq_some_iff (t := t), h]

end Table

end MetricRelay
