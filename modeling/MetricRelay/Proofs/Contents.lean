import MetricRelay.Proofs.ByteOrder
import MetricRelay.Proofs.Histories

/-!
# What a repository holds after any writes

What the writes to a name leave under it can be read off them without
running them (`Leaves`): nothing if they end in a reset, else the last
record, or the first increment behind the last reset, grown by the
increments that follow it. `leaves_iff` says that the repository's cells
compute this and nothing else. Since each metric is stored under its own
name (`keyed_final`), all listings are one and the same table.
-/

namespace MetricRelay

namespace Repository

/-- The metric with changes added to it, in order, as of the last one. -/
def grown (m : Metric) (ds : List Delta) : Metric :=
  { m with
    value := (ds.map Delta.value).foldl (· + ·) m.value
    observed := (ds.map Delta.observed).getLast?.getD m.observed }

/-- There are no writes behind the last reset. -/
def Cleared (ws : List Write) : Prop :=
  ws = [] ∨ ∃ before name asked, ws = before ++ [.reset name asked]

/-- What writes to a name, in order, leave under it. -/
inductive Leaves : List Write → Option Metric → Prop where
  | nothing {ws : List Write} (h : Cleared ws) : Leaves ws none
  | record (before : List Write) (m : Metric) (ds : List Delta) :
      Leaves (before ++ .record m :: ds.map .increment) (some (grown m ds))
  | increments {before : List Write} (h : Cleared before) (d : Delta) (ds : List Delta) :
      Leaves (before ++ .increment d :: ds.map .increment) (some (grown d.change ds))

variable {ws : List Write} {x? : Option Metric}

/-! ## Cells -/

theorem foldl_cell_increments (m : Metric) (ds : List Delta) :
    (ds.map Write.increment).foldl (cell (· + ·)) (some m) = some (grown m ds) := by
  induction ds generalizing m with
  | nil => rfl
  | cons d ds ih =>
    rw [List.map_cons, List.foldl_cons, cell, ih]
    simp only [grown, List.map_cons, List.foldl_cons, List.getLast?_cons, Option.getD_some]

theorem Cleared.foldl_cell (h : Cleared ws) : ws.foldl (cell (· + ·)) none = none := by
  rcases h with rfl | ⟨before, name, asked, rfl⟩
  · rfl
  · rw [List.foldl_append]
    rfl

theorem Leaves.foldl_cell (h : Leaves ws x?) : ws.foldl (cell (· + ·)) none = x? := by
  cases h with
  | nothing h => exact h.foldl_cell
  | record before m ds =>
    rw [List.foldl_append, List.foldl_cons]
    exact foldl_cell_increments m ds
  | increments h d ds =>
    rw [List.foldl_append, h.foldl_cell, List.foldl_cons]
    exact foldl_cell_increments d.change ds

/-- One more increment is added to what the writes before it leave. -/
theorem Leaves.append_increment (h : Leaves ws x?) (d : Delta) :
    ∃ x?, Leaves (ws ++ [.increment d]) x? := by
  have hmore : ∀ ds : List Delta,
      (ds ++ [d]).map Write.increment = ds.map .increment ++ [.increment d] := by simp
  cases h with
  | nothing h => exact ⟨_, .increments h d []⟩
  | record before m ds =>
    refine ⟨some (grown m (ds ++ [d])), ?_⟩
    rw [List.append_assoc, List.cons_append, ← hmore]
    exact .record before m _
  | @increments before h e ds =>
    refine ⟨some (grown e.change (ds ++ [d])), ?_⟩
    rw [List.append_assoc, List.cons_append, ← hmore]
    exact .increments h e _

theorem exists_leaves (ws : List Write) : ∃ x?, Leaves ws x? := by
  induction ws using List.reverseRecOn with
  | nil => exact ⟨none, .nothing (.inl rfl)⟩
  | append_singleton ws w ih =>
    cases w with
    | record m => exact ⟨_, .record ws m []⟩
    | increment d =>
      obtain ⟨x?, h⟩ := ih
      exact h.append_increment d
    | reset name asked => exact ⟨none, .nothing (.inr ⟨ws, name, asked, rfl⟩)⟩

theorem leaves_iff : Leaves ws x? ↔ ws.foldl (cell (· + ·)) none = x? := by
  refine ⟨Leaves.foldl_cell, ?_⟩
  rintro rfl
  obtain ⟨x?, h⟩ := exists_leaves ws
  rwa [h.foldl_cell]

/-! ## Runs -/

theorem find?_final (ε : Type) (ws : List Write) (name : String) :
    ((sink (ε := ε)).final .empty ws).find? name
      = (history name ws).foldl (cell (· + ·)) none := by
  rw [final_eq_foldl, find?_foldl_writeBy]
  rfl

theorem keyed_final (ε : Type) (ws : List Write) : ((sink (ε := ε)).final .empty ws).Keyed := by
  induction ws using List.reverseRecOn with
  | nil => exact keyed_empty
  | append_singleton ws w ih =>
    rw [Sink.final, List.foldl_append]
    exact ih.write w

theorem Keyed.names_eq {r : Repository} (h : r.Keyed) : r.names = r.all.map (·.name) := by
  rw [names, all, Table.names, Table.values, List.map_map]
  refine List.map_congr_left fun e he => ?_
  exact (h e.1 e.2 (Table.get?_eq_some_iff.mpr he)).symm

/-- After any writes to an empty repository, what is found under a name is
what the writes to this name leave, and all that is listed are the metrics
found, each under its own name, in the order of the bytes of the names. -/
theorem holds_what_histories_leave (ws : List Write) :
    let r := (sink (ε := Empty)).final .empty ws
    (∀ name x?, r.find? name = x? ↔ Leaves (history name ws) x?)
      ∧ (∀ name m, r.find? name = some m → m.name = name)
      ∧ (r.all.Pairwise fun m n => Utf8.encode m.name < Utf8.encode n.name)
      ∧ r.names = r.all.map (·.name)
      ∧ r.count = r.all.length
      ∧ ∀ name m, r.find? name = some m ↔ m ∈ r.all ∧ m.name = name := by
  intro r
  have hkeyed : r.Keyed := keyed_final Empty ws
  refine ⟨fun name x? => ?_, hkeyed, ?_, hkeyed.names_eq, ?_, fun name m => ?_⟩
  · rw [leaves_iff]
    exact Eq.congr_left (find?_final Empty ws name)
  · exact hkeyed.pairwise_all.imp fun h => Utf8.encode_lt_iff.mpr h
  · exact (List.length_map _).symm
  · constructor
    · intro hm
      obtain rfl := hkeyed name m hm
      exact ⟨hkeyed.mem_all_iff.mpr hm, rfl⟩
    · rintro ⟨hm, rfl⟩
      exact hkeyed.mem_all_iff.mp hm

end Repository

end MetricRelay
