import MetricRelay.Proofs.Refusals
import MetricRelay.Proofs.Runs
import Mathlib.Data.Finset.Card

/-!
# What a tracker remembers and measures

The cache of a tracker is a function of the writes alone: it holds the last
reading of every counter that was recorded, and nothing else (`Caches`).
Its size is therefore the number of counters so far, which the gauge behind
every derived delta shows, and a delta is the first of its counter just
when its name is new among them. The two are kept in step by one insertion
(`Caches.step`), and the sums over a run follow by induction
(`count_measured`, `pairwise_measured`).
-/

namespace MetricRelay

open Statsd (Measurement)

namespace Tracker

/-! ## The writes that matter -/

/-- The reading of a counter that a write records. -/
def counterReading? : Write → Option Metric
  | .record m => if m.isCounter then some m else none
  | _ => none

def counters (ws : List Write) : Finset String :=
  ((ws.filterMap counterReading?).map Metric.name).toFinset

variable {σ ε : Type} {t : Tracker} {w : Write} {ws : List Write} {m : Metric} {name : String}

theorem counterReading?_eq_some_iff : counterReading? w = some m ↔ w = .record m ∧ m.isCounter := by
  cases w with
  | record n =>
    rw [counterReading?, Option.ite_none_right_eq_some]
    constructor
    · rintro ⟨hn, ⟨⟩⟩
      exact ⟨rfl, hn⟩
    · rintro ⟨⟨⟩, hm⟩
      exact ⟨hm, rfl⟩
  | increment d => simp [counterReading?]
  | reset n asked => simp [counterReading?]

theorem mem_counters : name ∈ counters ws ↔ Metric.namesCounter name ∧ readings name ws ≠ [] := by
  rw [← List.getLast?_isSome, getLast?_readings_isSome]
  simp only [counters, List.mem_toFinset, List.mem_map, List.mem_filterMap,
    counterReading?_eq_some_iff]
  constructor
  · rintro ⟨m, ⟨_, hw, rfl, hm⟩, rfl⟩
    exact ⟨hm, m, hw, rfl⟩
  · rintro ⟨hname, m, hw, rfl⟩
    exact ⟨m, ⟨_, hw, rfl, hname⟩, rfl⟩

theorem counters_append_of_some (h : counterReading? w = some m) (ws : List Write) :
    counters (ws ++ [w]) = insert m.name (counters ws) := by
  ext name
  simp [counters, List.filterMap_append, h]

theorem counters_append_of_none (h : counterReading? w = none) (ws : List Write) :
    counters (ws ++ [w]) = counters ws := by
  simp [counters, List.filterMap_append, h]

/-! ## One write -/

theorem step_of_some (h : counterReading? w = some m) (t : Tracker) :
    (t.step w).1 = some (.increment (t.sent m)) ∧ (t.step w).2.1 = t.remember m
      ∧ (t.step w).2.2.measured
        = [.derived (t.last.get? m.name).isNone, .tracked (t.remember m).last.size] := by
  obtain ⟨rfl, hm⟩ := counterReading?_eq_some_iff.mp h
  refine ⟨(step_counter hm t).1, (step_counter hm t).2, ?_⟩
  simp only [step, derive, if_pos hm]
  rfl

theorem step_of_none (h : counterReading? w = none) (t : Tracker) :
    (t.step w).2.1 = t ∧ (t.step w).2.2.measured = [] := by
  cases w with
  | record m =>
    have hm : ¬ m.isCounter := by simpa [counterReading?] using h
    refine ⟨(step_other hm t).2, ?_⟩
    simp only [step, derive, if_neg hm]
    rfl
  | increment d => exact ⟨rfl, rfl⟩
  | reset n asked => exact ⟨rfl, rfl⟩

/-! ## The cache of a run -/

def after (t : Tracker) (ws : List Write) : Tracker := ws.foldl (fun t w => (t.step w).2.1) t

theorem after_append (t : Tracker) (ws ws' : List Write) :
    t.after (ws ++ ws') = (t.after ws).after ws' := List.foldl_append

theorem final_before_fst (down : Sink σ ε) (t : Tracker) (s : σ) (ws : List Write) :
    ((before down).final (t, s) ws).1 = t.after ws := by
  induction ws generalizing t s with
  | nil => rfl
  | cons w ws ih =>
    have hstate := state_accept_before down t s w
    have hcons : (before down).final (t, s) (w :: ws)
        = (before down).final ((before down).accept (t, s) w).state ws := rfl
    rw [hcons, ← Prod.eta ((before down).accept (t, s) w).state, hstate]
    exact ih _ _

/-- The cache holds the last reading of each counter, and nothing else. -/
def Caches (ws : List Write) (t : Tracker) : Prop :=
  ∀ name, t.last.get? name
    = if Metric.namesCounter name then (readings name ws).getLast? else none

theorem Caches.step (h : Caches ws t) (w : Write) : Caches (ws ++ [w]) (t.step w).2.1 := by
  intro name
  have hreadings : readings name (ws ++ [w]) = readings name ws ++ (reading? name w).toList := by
    have hlast := readings_cons name w []
    rw [show readings name [] = [] from rfl, List.append_nil] at hlast
    rw [← hlast]
    exact List.filterMap_append
  split
  · next hcounter =>
    have hname := h name
    rw [if_pos hcounter] at hname
    rw [get?_step hcounter, hname, hreadings, List.getLast?_append]
    cases reading? name w <;> rfl
  · next hother =>
    have hname := h name
    rw [if_neg hother] at hname
    cases hw : counterReading? w with
    | none => rw [(step_of_none hw t).1, hname]
    | some m =>
      have hne : name ≠ m.name := by
        rintro rfl
        exact hother (counterReading?_eq_some_iff.mp hw).2
      rw [(step_of_some hw t).2.1, remember, Table.get?_insert_of_ne hne, hname]

theorem caches_after (ws : List Write) : Caches ws (fresh.after ws) := by
  -- from the back: a write in front would change the tracker that the rest starts from
  induction ws using List.reverseRecOn with
  | nil =>
    intro name
    split <;> rfl
  | append_singleton ws w ih =>
    rw [after_append]
    exact ih.step w

theorem Caches.names (h : Caches ws t) : t.last.names.toFinset = counters ws := by
  ext name
  rw [List.mem_toFinset, Table.mem_names_iff, h name, mem_counters]
  split
  · next hcounter => simp [hcounter]
  · next hother => simp [hother]

theorem Caches.size (h : Caches ws t) : t.last.size = (counters ws).card := by
  rw [← h.names, List.toFinset_card_of_nodup t.last.nodup_names]
  exact (List.length_map _).symm

theorem Caches.isNone (h : Caches ws t) (name : String) :
    (t.last.get? name).isNone = decide (name ∉ counters ws) := by
  rw [Bool.eq_iff_iff, decide_eq_true_iff, ← h.names, List.mem_toFinset, Table.mem_names_iff]
  cases t.last.get? name <;> simp

theorem counters_subset (ws ws' : List Write) : counters ws ⊆ counters (ws ++ ws') := by
  intro name hname
  rw [counters, List.mem_toFinset] at hname ⊢
  rw [List.filterMap_append, List.map_append]
  exact List.mem_append_left _ hname

/-! ## Measurements -/

def derivation (first : Bool) : Measurement :=
  ⟨.count, "metrics.delta.derived", .integer 1, [("first", if first then "true" else "false")]⟩

def level (n : Nat) : Measurement := ⟨.gauge, "metrics.delta.tracked", .integer n, []⟩

/-- The number that is sent as the number of counters. -/
def levelOf? (x : Measurement) : Option Int :=
  match x.value with
  | .integer n => if x.kind = .gauge ∧ x.name = "metrics.delta.tracked" then some n else none
  | .real _ => none

/-- What a tracker itself sends in a run. -/
def measured (t : Tracker) (ws : List Write) : List Measurement :=
  (stages t ws).flatMap fun p => (p.1.step p.2).2.2.measured.map Health.measurement

/-- What the tracker passes on in a run. -/
def passedOn (t : Tracker) (ws : List Write) : List Write :=
  (stages t ws).filterMap fun p => (p.1.step p.2).1

theorem stages_append (t : Tracker) (ws ws' : List Write) :
    stages t (ws ++ ws') = stages t ws ++ stages (t.after ws) ws' := by
  induction ws generalizing t with
  | nil => rfl
  | cons w ws ih =>
    rw [List.cons_append, stages, stages, ih]
    rfl

/-- What the write behind `ws` adds to the measurements. -/
theorem measured_append (ws : List Write) (w : Write) :
    measured fresh (ws ++ [w]) = measured fresh ws ++ match counterReading? w with
      | some m => [derivation (m.name ∉ counters ws), level (counters (ws ++ [w])).card]
      | none => [] := by
  have hadded : measured fresh (ws ++ [w]) = measured fresh ws
      ++ ((fresh.after ws).step w).2.2.measured.map Health.measurement := by
    rw [measured, stages_append, List.flatMap_append]
    exact congrArg _ (List.append_nil _)
  rw [hadded]
  have hcaches := caches_after ws
  have hsize := (hcaches.step w).size
  cases hw : counterReading? w with
  | none =>
    rw [(step_of_none hw _).2]
    rfl
  | some m =>
    obtain ⟨-, hstate, hmeasured⟩ := step_of_some hw (fresh.after ws)
    rw [hmeasured, hcaches.isNone, ← hstate, hsize]
    rfl

theorem count_measured (ws : List Write) :
    (measured fresh ws).count (derivation true) = (counters ws).card := by
  induction ws using List.reverseRecOn with
  | nil => rfl
  | append_singleton ws w ih =>
    rw [measured_append, List.count_append, ih]
    cases hw : counterReading? w with
    | none => rw [counters_append_of_none hw, List.count_nil, add_zero]
    | some m =>
      rw [counters_append_of_some hw]
      by_cases hname : m.name ∈ counters ws
      · rw [Finset.insert_eq_of_mem hname]
        simp [hname, derivation, level]
      · rw [Finset.card_insert_of_notMem hname]
        simp [hname, derivation, level]

/-- The number of counters that is sent never decreases, and is never
greater than it has become. -/
theorem pairwise_measured (ws : List Write) :
    ((measured fresh ws).filterMap levelOf?).Pairwise (· ≤ ·)
      ∧ ∀ n ∈ (measured fresh ws).filterMap levelOf?, n ≤ (counters ws).card := by
  induction ws using List.reverseRecOn with
  | nil => exact ⟨.nil, nofun⟩
  | append_singleton ws w ih =>
    obtain ⟨hpairwise, hbound⟩ := ih
    rw [measured_append, List.filterMap_append]
    cases hw : counterReading? w with
    | none =>
      rw [counters_append_of_none hw, List.filterMap_nil, List.append_nil]
      exact ⟨hpairwise, hbound⟩
    | some m =>
      have hgrown : (counters ws).card ≤ (counters (ws ++ [w])).card :=
        Finset.card_le_card (counters_subset ws [w])
      have hadded : [derivation (m.name ∉ counters ws), level (counters (ws ++ [w])).card].filterMap
          levelOf? = [((counters (ws ++ [w])).card : Int)] := by
        simp [derivation, level, levelOf?]
      have hbelow : ∀ n ∈ (measured fresh ws).filterMap levelOf?,
          n ≤ (counters (ws ++ [w])).card := fun n hn => (hbound n hn).trans (by exact_mod_cast hgrown)
      dsimp only
      rw [hadded]
      constructor
      · refine List.pairwise_append.mpr ⟨hpairwise, List.pairwise_singleton _ _, ?_⟩
        intro n hn k hk
        rw [List.mem_singleton.mp hk]
        exact hbelow n hn
      · intro n hn
        rcases List.mem_append.mp hn with hn | hn
        · exact hbelow n hn
        · exact (List.mem_singleton.mp hn).le

theorem measured_accept_before (down : Sink σ ε) (t : Tracker) (s : σ) (w : Write) :
    ((before down).accept (t, s) w).trail.measured
      = (t.step w).2.2.measured ++ match (t.step w).1 with
        | none => []
        | some v => (down.accept s v).trail.measured := by
  rw [accept_before]
  cases (t.step w).1 with
  | none => exact (List.append_nil _).symm
  | some v => rfl

/-- What is measured in a run is what the tracker sends and what is measured
behind it, each in its order. -/
theorem measurements_before (down : Sink σ ε) (t : Tracker) (s : σ) (ws : List Write) :
    (((before down).measurements (t, s) ws).map Health.measurement).Perm
      (measured t ws ++ (down.measurements s (passedOn t ws)).map Health.measurement) := by
  induction ws generalizing t s with
  | nil => exact .nil
  | cons w ws ih =>
    have hmeasured : measured t (w :: ws)
        = (t.step w).2.2.measured.map Health.measurement ++ measured (t.step w).2.1 ws :=
      List.flatMap_cons
    rw [Sink.measurements_cons, measured_accept_before, accept_before, hmeasured, passedOn, stages,
      List.filterMap_cons, List.map_append, List.map_append, List.append_assoc, List.append_assoc]
    refine List.Perm.append_left _ ?_
    cases (t.step w).1 with
    | none => exact ih (t.step w).2.1 s
    | some v =>
      rw [Sink.measurements_cons, List.map_append]
      -- what this write leads to behind the tracker is measured before what
      -- the tracker itself sends of the writes that follow
      exact ((ih (t.step w).2.1 (down.accept s v).state).append_left _).trans
        (List.perm_append_comm_assoc _ _ _)

/-- What becomes of a write by the tracker and the sink behind it, after the
writes `seen` and in the state `st`. -/
structure Noted (down : Sink σ ε) (seen : List Write) (st : Tracker × σ) (w : Write)
    (r : Reply (Tracker × σ) ε Unit) : Prop where
  /-- A counter's reading is remembered, and measured before it is passed
  on. -/
  counter : ∀ m, counterReading? w = some m →
    (∀ name, r.state.1.last.get? name = if name = m.name then some m else st.1.last.get? name)
      ∧ r.trail.measured.map Health.measurement
        = derivation (m.name ∉ counters seen) :: level (counters (seen ++ [w])).card
          :: (down.accept st.2 (.increment (st.1.sent m))).trail.measured.map Health.measurement
  other : counterReading? w = none → r.state.1 = st.1
  passed : counterReading? w = none → (∀ name asked, w ≠ .reset name asked) →
    r.trail.measured = (down.accept st.2 w).trail.measured
  reset : ∀ name asked, w = .reset name asked → r.trail.measured = []

theorem noted_accept {seen : List Write} (h : Caches seen t) (down : Sink σ ε) (s : σ) (w : Write) :
    Noted down seen (t, s) w ((before down).accept (t, s) w) := by
  have hstate := state_accept_before down t s w
  have hmeasured := measured_accept_before down t s w
  constructor
  case counter =>
    intro m hw
    obtain ⟨hsent, hremembered, hown⟩ := step_of_some hw t
    have hsize := (h.step w).size
    rw [hremembered] at hstate hsize
    rw [hsent, hown, h.isNone, hsize] at hmeasured
    rw [hstate, hmeasured]
    exact ⟨fun name => Table.get?_insert t.last m.name name m, rfl⟩
  case other => exact fun hw => hstate.trans (step_of_none hw t).1
  case passed =>
    intro hw hreset
    rw [(step_of_none hw t).2, List.nil_append] at hmeasured
    rw [hmeasured]
    cases w with
    | record m =>
      have hm : ¬ m.isCounter := by simpa [counterReading?] using hw
      rw [(step_other hm t).1]
    | increment d => rfl
    | reset name asked => exact absurd rfl (hreset name asked)
  case reset =>
    rintro name asked rfl
    exact hmeasured

/-- In every run of a tracker before any sink the cache holds the last
reading of each counter so far and nothing else, so it never shrinks. Each
of these readings is measured as a derived delta, the first one or not of
its name, and then by the number of counters so far. What the tracker sends
of other writes is nothing, so that the first ones are as many as the cache
holds, and the number never decreases. -/
theorem cache_follows_readings (down : Sink σ ε) (s : σ) (ws : List Write) :
    let k := before down
    let cache (i : Nat) := (k.final (fresh, s) (ws.take i)).1.last
    (∀ i name, (cache i).get? name
        = if Metric.namesCounter name then (readings name (ws.take i)).getLast? else none)
      ∧ (∀ i j, i ≤ j → (cache i).names ⊆ (cache j).names)
      ∧ (k.replies (fresh, s) ws).length = ws.length
      ∧ (∀ i w r, ws[i]? = some w → (k.replies (fresh, s) ws)[i]? = some r →
          Noted down (ws.take i) (k.final (fresh, s) (ws.take i)) w r)
      ∧ ((k.measurements (fresh, s) ws).map Health.measurement).Perm
          (measured fresh ws ++ (down.measurements s (passedOn fresh ws)).map Health.measurement)
      ∧ (measured fresh ws).count (derivation true) = (k.final (fresh, s) ws).1.last.size
      ∧ ((measured fresh ws).filterMap levelOf?).Pairwise (· ≤ ·) := by
  intro k cache
  have hcaches : ∀ ws, Caches ws (k.final (fresh, s) ws).1 := by
    intro ws
    rw [final_before_fst]
    exact caches_after ws
  refine ⟨fun i => hcaches (ws.take i), ?_, k.length_replies _ ws, ?_,
    measurements_before down fresh s ws, ?_, (pairwise_measured ws).1⟩
  · intro i j hij name hname
    obtain ⟨more, hmore⟩ := List.take_prefix_take_left (l := ws) hij
    rw [← List.mem_toFinset, (hcaches _).names] at hname ⊢
    rw [← hmore]
    exact counters_subset _ more hname
  · intro i w r hw hr
    obtain rfl := k.eq_of_getElem?_replies hw hr
    exact noted_accept (hcaches (ws.take i)) down _ w
  · rw [count_measured, (hcaches ws).size]

end Tracker

end MetricRelay
