import MetricRelay.Proofs.Number.Integers
import MetricRelay.Proofs.Storing
import MetricRelay.Repository
import MetricRelay.Tracker
import Mathlib.Data.List.Induction

/-!
# A tracker before a repository

The repository behind a tracker only ever sees changes of counters, yet
it holds their readings. The invariant is `InStep`: what the tracker
remembers of a counter is its last reading, and what the repository holds
under the name is the whole part of that reading. A further reading keeps
it because the whole part in the store and the change add up without
rounding (`ofInt64_add_sub`); that is the only place where the bounds on
the readings are needed.
-/

namespace MetricRelay

open Number (Fits truncate ofInt64)

namespace Tracker

/-! ## Readings of a run -/

/-- The readings of one name that a run records, in order. -/
def readings (name : String) (ws : List Write) : List Metric :=
  ws.filterMap fun
    | .record m => if m.name = name then some m else none
    | _ => none

/-- The whole part of a reading. -/
def whole (m : Metric) : Int := (truncate m.value).toInt

/-- The whole parts of the readings and the changes between successive
ones are exact as floating point numbers. -/
structure Exact (ms : List Metric) : Prop where
  /-- Every reading fits. -/
  whole : ∀ m ∈ ms, Fits (whole m)
  /-- Every change fits. -/
  change : ms.IsChain fun m n => Fits (Tracker.whole n - Tracker.whole m)

variable {name : String} {ws : List Write} {m : Metric}

theorem readings_record_self (ws : List Write) (m : Metric) :
    readings m.name (ws ++ [.record m]) = readings m.name ws ++ [m] := by
  simp [readings, List.filterMap_append]

theorem readings_record_of_ne (h : m.name ≠ name) :
    readings name (ws ++ [.record m]) = readings name ws := by
  simp [readings, List.filterMap_append, h]

theorem readings_reset (name reset : String) (ws : List Write) (asked : Instant) :
    readings name (ws ++ [.reset reset asked]) = readings name ws := by
  simp [readings, List.filterMap_append]

theorem name_of_mem_readings (h : m ∈ readings name ws) : m.name = name := by
  obtain ⟨w, -, hw⟩ := List.mem_filterMap.mp h
  cases w with
  | record n =>
    dsimp only at hw
    split at hw
    · next heq =>
      cases hw
      exact heq
    · cases hw
  | increment d => cases hw
  | reset n t => cases hw

theorem Exact.of_append {ms ns : List Metric} (h : Exact (ms ++ ns)) : Exact ms :=
  ⟨fun m hm => h.whole m (List.mem_append_left ns hm), h.change.left_of_append⟩

/-- What the repository makes of a reading. -/
def settled (m : Metric) : Metric :=
  if m.isCounter then { m with value := ofInt64 (truncate m.value) } else m

/-! ## The invariant -/

/-- Tracker and repository after the writes `ws`. -/
structure InStep (ws : List Write) (s : Tracker × Repository) : Prop where
  /-- The tracker remembers the last reading of each counter. -/
  remembered : ∀ name, Metric.namesCounter name →
    s.1.last.get? name = (readings name ws).getLast?
  /-- The repository holds the last reading of each name. -/
  stored : ∀ name, s.2.find? name = (readings name ws).getLast?.map settled

variable {ε : Type} {t : Tracker} {r : Repository}

theorem InStep.reset (h : InStep ws (t, r)) (reset : String) (asked : Instant) :
    InStep (ws ++ [.reset reset asked])
      ((before (Repository.sink (ε := ε))).accept (t, r) (.reset reset asked)).state := by
  constructor
  · intro name hname
    rw [readings_reset]
    exact h.remembered name hname
  · intro name
    rw [readings_reset]
    exact h.stored name

theorem InStep.other (h : InStep ws (t, r)) (hm : ¬ m.isCounter) :
    InStep (ws ++ [.record m])
      ((before (Repository.sink (ε := ε))).accept (t, r) (.record m)).state := by
  have hstate : ((before (Repository.sink (ε := ε))).accept (t, r) (.record m)).state
      = (t, r.record m) := by
    simp only [before, relay, step, derive, if_neg hm]
    rfl
  rw [hstate]
  constructor
  · intro name hname
    have hne : m.name ≠ name := by
      rintro rfl
      exact hm hname
    rw [readings_record_of_ne hne]
    exact h.remembered name hname
  · intro name
    by_cases heq : m.name = name
    · subst heq
      rw [readings_record_self, List.getLast?_concat, Option.map_some, settled, if_neg hm]
      rw [Repository.find?_record, if_pos rfl]
    · rw [readings_record_of_ne heq, ← h.stored]
      rw [Repository.find?_record, if_neg (Ne.symm heq)]

/-- The change that is sent on for a counter reading. -/
def sent (t : Tracker) (m : Metric) : Delta := ⟨{ m with value := ofInt64 (t.change m) }⟩

/-- The store after the change of a counter reading holds its whole part. -/
theorem InStep.find?_increment (h : InStep ws (t, r)) (hm : m.isCounter)
    (hexact : Exact (readings m.name ws ++ [m])) :
    (r.increment (t.sent m)).find? m.name = some (settled m) := by
  have hstored := h.stored m.name
  have hremembered := h.remembered m.name hm
  have hname : (t.sent m).name = m.name := rfl
  dsimp only at hstored hremembered
  rw [Repository.find?_increment, hname, if_pos rfl, hstored, settled, if_pos hm]
  unfold sent change
  rw [hremembered]
  rcases List.eq_nil_or_concat (readings m.name ws) with hnone | ⟨before, last, hlast⟩
  · rw [hnone]
    rfl
  · rw [List.concat_eq_append] at hlast
    rw [hlast, List.getLast?_concat]
    have hmem : last ∈ readings m.name ws := by
      rw [hlast]
      simp
    have hlastName : last.name = m.name := name_of_mem_readings hmem
    have hcounter : last.isCounter := by rwa [Metric.isCounter, hlastName]
    have hsum : ofInt64 (truncate last.value) + ofInt64 (truncate m.value - truncate last.value)
        = ofInt64 (truncate m.value) := by
      rw [hlast] at hexact
      refine Number.ofInt64_add_sub (hexact.whole last (by simp)) (hexact.whole m (by simp)) ?_
      exact (List.isChain_append.mp hexact.change).2.2 last (by simp) m (by simp)
    rw [Option.map_some, settled, if_pos hcounter]
    dsimp only [Repository.changed, Delta.value, Delta.observed, difference]
    rw [hsum, hlastName]

theorem InStep.counter (h : InStep ws (t, r)) (hm : m.isCounter)
    (hexact : Exact (readings m.name ws ++ [m])) :
    InStep (ws ++ [.record m])
      ((before (Repository.sink (ε := ε))).accept (t, r) (.record m)).state := by
  have hstate : ((before (Repository.sink (ε := ε))).accept (t, r) (.record m)).state
      = (t.remember m, r.increment (t.sent m)) := by
    simp only [before, relay, step, derive, if_pos hm]
    rfl
  rw [hstate]
  constructor
  · intro name hname
    by_cases heq : m.name = name
    · subst heq
      rw [readings_record_self, List.getLast?_concat]
      exact Table.get?_insert_self t.last m.name m
    · rw [readings_record_of_ne heq]
      exact (Table.get?_insert_of_ne (Ne.symm heq) t.last m).trans (h.remembered name hname)
  · intro name
    by_cases heq : m.name = name
    · subst heq
      rw [readings_record_self, List.getLast?_concat, Option.map_some]
      exact h.find?_increment hm hexact
    · rw [readings_record_of_ne heq]
      have hne : name ≠ (t.sent m).name := Ne.symm heq
      rw [Repository.find?_increment, if_neg hne]
      exact h.stored name

/-! ## Runs -/

/-- Tracker and repository after a run. -/
def track (ws : List Write) : Tracker × Repository :=
  (before (Repository.sink (ε := Empty))).final (fresh, .empty) ws

/-- Tracker and repository stay in step as long as the whole parts of
the counters are exact. -/
theorem inStep_track (hcalls : ∀ d, Write.increment d ∉ ws)
    (hexact : ∀ name, Metric.namesCounter name → Exact (readings name ws)) :
    InStep ws (track ws) := by
  induction ws using List.reverseRecOn with
  | nil => exact ⟨fun _ _ => rfl, fun _ => rfl⟩
  | append_singleton ws w ih =>
    have hcalls' : ∀ d, Write.increment d ∉ ws := fun d hd =>
      hcalls d (List.mem_append_left _ hd)
    have hexact' : ∀ name, Metric.namesCounter name → Exact (readings name ws) := by
      intro name hname
      have := hexact name hname
      rw [readings, List.filterMap_append] at this
      exact this.of_append
    have h := ih hcalls' hexact'
    have hstep : track (ws ++ [w])
        = ((before (Repository.sink (ε := Empty))).accept (track ws) w).state := by
      simp only [track, Sink.final, List.foldl_append, List.foldl_cons, List.foldl_nil]
    rw [hstep]
    cases w with
    | record m =>
      by_cases hm : m.isCounter
      · have hm' := hexact m.name hm
        rw [readings_record_self] at hm'
        exact h.counter hm hm'
      · exact h.other hm
    | increment d => exact absurd (List.mem_append_right ws (List.mem_singleton_self _)) (hcalls d)
    | reset name asked => exact h.reset name asked

theorem getLast?_readings_isSome :
    (readings name ws).getLast?.isSome ↔ ∃ m, Write.record m ∈ ws ∧ m.name = name := by
  rw [List.getLast?_isSome]
  constructor
  · intro hne
    obtain ⟨m, hm⟩ := List.exists_mem_of_ne_nil _ hne
    obtain ⟨w, hw, heq⟩ := List.mem_filterMap.mp hm
    cases w with
    | record n =>
      have hname := name_of_mem_readings hm
      dsimp only at heq
      split at heq
      · cases heq
        exact ⟨_, hw, hname⟩
      · cases heq
    | increment d => cases heq
    | reset n t => cases heq
  · rintro ⟨m, hm, rfl⟩
    refine List.ne_nil_of_mem (a := m) (List.mem_filterMap.mpr ⟨_, hm, ?_⟩)
    dsimp only
    rw [if_pos rfl]

/-- Behind a tracker the repository holds exactly the names that were
recorded: of a counter the whole part of its last reading with the time
of that reading, of another metric the last reading. -/
theorem holds_last_readings (ws : List Write) (hcalls : ∀ d, Write.increment d ∉ ws)
    (hexact : ∀ name, Metric.namesCounter name → Exact (readings name ws)) :
    (∀ name, name ∈ (track ws).2.names ↔ ∃ m, Write.record m ∈ ws ∧ m.name = name) ∧
    ∀ name m, (readings name ws).getLast? = some m →
      if Metric.namesCounter name then
        ∃ held, (track ws).2.find? name = some held ∧ held.name = name
          ∧ held.observed = m.observed ∧ held.value.isFinite ∧ Number.exact held.value = whole m
      else (track ws).2.find? name = some m := by
  have h := inStep_track hcalls hexact
  constructor
  · intro name
    rw [← getLast?_readings_isSome, ← Option.isSome_map (f := settled), ← h.stored]
    exact Table.mem_names_iff
  · intro name m hm
    have hmem := List.mem_of_getLast? hm
    have hname := name_of_mem_readings hmem
    have hfind := h.stored name
    rw [hm, Option.map_some, settled] at hfind
    split
    · next hcounter =>
      have hm' : m.isCounter := by rwa [Metric.isCounter, hname]
      rw [if_pos hm'] at hfind
      obtain ⟨hfinite, hvalue⟩ := Number.exact_ofInt64 ((hexact name hcounter).whole m hmem)
      exact ⟨_, hfind, hname, rfl, hfinite, hvalue⟩
    · next hcounter =>
      rwa [if_neg (by rwa [Metric.isCounter, hname])] at hfind

theorem holds_last_readings_of_one_counter :
    let ws : List Write := [.record ⟨"counter.hits", 3.5, ⟨0⟩⟩, .reset "counter.hits" ⟨1⟩,
      .record ⟨"gauge.load", 0.25, ⟨2⟩⟩, .record ⟨"counter.hits", 1.75, ⟨3⟩⟩]
    ∃ held, (track ws).2.find? "counter.hits" = some held ∧ held.name = "counter.hits"
      ∧ held.observed = ⟨3⟩ ∧ held.value.isFinite ∧ Number.exact held.value = 1 := by
  intro ws
  have hcalls : ∀ d, Write.increment d ∉ ws := by simp [ws]
  have hexact : ∀ name, Metric.namesCounter name → Exact (readings name ws) := by
    intro name hname
    by_cases hhits : "counter.hits" = name
    · subst hhits
      have hreadings : readings "counter.hits" ws
          = [⟨"counter.hits", 3.5, ⟨0⟩⟩, ⟨"counter.hits", 1.75, ⟨3⟩⟩] := by
        simp [readings, ws]
      rw [hreadings]
      constructor
      · decide +kernel
      · decide +kernel
    · have hload : "gauge.load" ≠ name := by
        rintro rfl
        exact absurd hname (by decide)
      have hreadings : readings name ws = [] := by
        simp [readings, ws, hhits, hload]
      rw [hreadings]
      exact ⟨by simp, List.isChain_nil⟩
  have hlast : (readings "counter.hits" ws).getLast? = some ⟨"counter.hits", 1.75, ⟨3⟩⟩ := by
    simp [readings, ws]
  have h := (holds_last_readings ws hcalls hexact).2 "counter.hits" _ hlast
  rw [if_pos (by decide)] at h
  obtain ⟨held, hfind, hname, hobserved, hfinite, hvalue⟩ := h
  refine ⟨held, hfind, hname, hobserved, hfinite, hvalue.trans ?_⟩
  have hwhole : whole ⟨"counter.hits", 1.75, ⟨3⟩⟩ = 1 := by decide +kernel
  rw [hwhole, Int.cast_one]

end Tracker

end MetricRelay
