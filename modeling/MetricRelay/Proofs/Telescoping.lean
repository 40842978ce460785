import MetricRelay.Proofs.Tracking
import Mathlib.Data.Int.ModEq

/-!
# The changes of a counter add up to its last reading

Whatever the readings of a counter are, the changes that a tracker
computes for them add up, modulo `2 ^ 64`, to the whole part of the last
one: saturation and NaN only decide what the whole part of a reading is,
and the wrap-around of a difference is a multiple of `2 ^ 64`.

A run is cut into its stages, the writes with the trackers that meet
them. The cache of a counter is its previous reading whatever else is
written in between (`get?_step`), so the changes of a name in a run are
those of its readings alone (`onReadings_change`), and these telescope
(`sum_successive`).
-/

namespace MetricRelay

open Number (truncate ofInt64)

namespace Tracker

/-! ## The stages of a run -/

/-- The reading of a name that a write records. -/
def reading? (name : String) : Write → Option Metric
  | .record m => if m.name = name then some m else none
  | _ => none

/-- The writes of a run, each with the tracker that meets it. -/
def stages (t : Tracker) : List Write → List (Tracker × Write)
  | [] => []
  | w :: ws => (t, w) :: stages (t.step w).2.1 ws

/-- What `f` makes of the readings of a name and the trackers that meet
them. -/
def onReadings {α : Type} (name : String) (f : Tracker → Metric → α) (t : Tracker)
    (ws : List Write) : List α :=
  (stages t ws).filterMap fun p => (reading? name p.2).map (f p.1)

/-- The changes computed for the readings of a name, before they become
floating point numbers. -/
def changes (name : String) (ws : List Write) : List Int64 :=
  onReadings name change fresh ws

/-- What is sent on for the readings of a name. -/
def sentOn (name : String) (ws : List Write) : List (Option Write) :=
  onReadings name (fun t m => (t.step (.record m)).1) fresh ws

variable {name : String} {w : Write} {ws : List Write} {m : Metric} {t : Tracker} {α β : Type}

theorem reading?_eq_some_iff : reading? name w = some m ↔ w = .record m ∧ m.name = name := by
  constructor
  · intro h
    cases w with
    | record n =>
      simp only [reading?] at h
      split at h
      · next hname =>
        obtain rfl := Option.some.inj h
        exact ⟨rfl, hname⟩
      · cases h
    | increment d => cases h
    | reset n asked => cases h
  · rintro ⟨rfl, rfl⟩
    simp [reading?]

theorem readings_cons (name : String) (w : Write) (ws : List Write) :
    readings name (w :: ws) = (reading? name w).toList ++ readings name ws := by
  have hreadings : ∀ ws, readings name ws = ws.filterMap (reading? name) := fun _ => rfl
  rw [hreadings, hreadings, List.filterMap_cons]
  cases reading? name w <;> rfl

theorem onReadings_cons (name : String) (f : Tracker → Metric → α) (t : Tracker) (w : Write)
    (ws : List Write) :
    onReadings name f t (w :: ws)
      = ((reading? name w).map (f t)).toList ++ onReadings name f (t.step w).2.1 ws := by
  rw [onReadings, stages, List.filterMap_cons]
  cases reading? name w <;> rfl

theorem length_onReadings (f : Tracker → Metric → α) (t : Tracker) (ws : List Write) :
    (onReadings name f t ws).length = (readings name ws).length := by
  induction ws generalizing t with
  | nil => rfl
  | cons w ws ih =>
    rw [onReadings_cons, readings_cons, List.length_append, List.length_append, ih]
    cases reading? name w <;> rfl

/-- The reply of a sink behind a tracker, by what the tracker sends on. -/
theorem accept_before {σ ε : Type} (down : Sink σ ε) (t : Tracker) (s : σ) (w : Write) :
    (before down).accept (t, s) w = match (t.step w).1 with
      | none => ⟨.ok (), ((t.step w).2.1, s), (t.step w).2.2⟩
      | some v => ((down.accept s v).mapState ((t.step w).2.1, ·)).after (t.step w).2.2 := by
  simp only [before, relay]
  rw [← Prod.eta (t.step w)]
  cases (t.step w).1 <;> rfl

/-- Behind the tracker arrives what its steps send on, in order. -/
theorem final_before {σ ε : Type} (down : Sink σ ε) (t : Tracker) (s : σ) (ws : List Write) :
    ((before down).final (t, s) ws).2
      = down.final s ((stages t ws).filterMap fun p => (p.1.step p.2).1) := by
  induction ws generalizing t s with
  | nil => rfl
  | cons w ws ih =>
    have hcons : (before down).final (t, s) (w :: ws)
        = (before down).final ((before down).accept (t, s) w).state ws := rfl
    rw [hcons, stages, List.filterMap_cons, accept_before]
    cases (t.step w).1 with
    | none => exact ih (t.step w).2.1 s
    | some v => exact ih (t.step w).2.1 (down.accept s v).state

/-! ## Changes are those of successive readings -/

theorem step_counter (hm : m.isCounter) (t : Tracker) :
    (t.step (.record m)).1 = some (.increment (t.sent m))
      ∧ (t.step (.record m)).2.1 = t.remember m := by
  constructor
  · simp only [step, derive, if_pos hm]
    rfl
  · simp only [step, derive, if_pos hm]

theorem step_other (hm : ¬ m.isCounter) (t : Tracker) :
    (t.step (.record m)).1 = some (.record m) ∧ (t.step (.record m)).2.1 = t := by
  constructor
  · simp only [step, derive, if_neg hm]
  · simp only [step, derive, if_neg hm]

/-- A step puts a counter's reading into the cache and leaves what the
cache holds of other names. -/
theorem get?_step (hcounter : Metric.namesCounter name) (t : Tracker) (w : Write) :
    (t.step w).2.1.last.get? name = (reading? name w).or (t.last.get? name) := by
  cases w with
  | record m =>
    by_cases hm : m.isCounter
    · rw [(step_counter hm t).2, remember, Table.get?_insert, reading?]
      by_cases hname : m.name = name
      · rw [if_pos hname, if_pos hname.symm]
        rfl
      · rw [if_neg hname, if_neg (Ne.symm hname)]
        rfl
    · have hname : m.name ≠ name := by
        rintro rfl
        exact hm hcounter
      rw [(step_other hm t).2, reading?, if_neg hname]
      rfl
  | increment d => rfl
  | reset n asked => rfl

/-- The changes from each reading to the next, the first one from
`last?`. -/
def successive (last? : Option Metric) : List Metric → List Int64
  | [] => []
  | m :: ms => difference last? m :: successive (some m) ms

theorem onReadings_change (hcounter : Metric.namesCounter name) (t : Tracker) (ws : List Write) :
    onReadings name change t ws = successive (t.last.get? name) (readings name ws) := by
  induction ws generalizing t with
  | nil => rfl
  | cons w ws ih =>
    rw [onReadings_cons, readings_cons, ih, get?_step hcounter]
    cases hreading : reading? name w with
    | none => rfl
    | some m =>
      obtain ⟨-, rfl⟩ := reading?_eq_some_iff.mp hreading
      rfl

/-- Every reading of a counter is sent on as one delta with its change. -/
theorem onReadings_step (hcounter : Metric.namesCounter name) (t : Tracker) (ws : List Write) :
    onReadings name (fun t m => (t.step (.record m)).1) t ws
      = List.zipWith (fun m d => some (.increment ⟨⟨name, ofInt64 d, m.observed⟩⟩))
          (readings name ws) (onReadings name change t ws) := by
  induction ws generalizing t with
  | nil => rfl
  | cons w ws ih =>
    rw [onReadings_cons, onReadings_cons, readings_cons, ih]
    cases hreading : reading? name w with
    | none => rfl
    | some m =>
      obtain ⟨-, rfl⟩ := reading?_eq_some_iff.mp hreading
      have hsent := (step_counter hcounter t).1
      simp only [Option.map_some, Option.toList_some, List.singleton_append,
        List.zipWith_cons_cons, hsent]
      rfl

/-! ## Changes telescope -/

/-- The whole part of a reading, zero where there is none. -/
def wholeOf (last? : Option Metric) : Int := (last?.map whole).getD 0

theorem difference_modEq (last? : Option Metric) (m : Metric) :
    (difference last? m).toInt + wholeOf last? ≡ whole m [ZMOD 2 ^ 64] := by
  cases last? with
  | none =>
    have hnone : wholeOf none = 0 := rfl
    rw [hnone, add_zero]
    rfl
  | some last =>
    have hsub : (difference (some last) m).toInt ≡ whole m - whole last [ZMOD 2 ^ 64] := by
      rw [difference, Int64.toInt_sub]
      exact Int.bmod_emod
    have hadd := hsub.add_right (whole last)
    rw [sub_add_cancel] at hadd
    exact hadd

theorem getLast?_cons_or (last? : Option Metric) (m : Metric) (ms : List Metric) :
    (m :: ms).getLast?.or last? = ms.getLast?.or (some m) := by
  rw [List.getLast?_cons]
  cases ms.getLast? <;> rfl

theorem sum_successive (last? : Option Metric) (ms : List Metric) :
    ((successive last? ms).map Int64.toInt).sum + wholeOf last?
      ≡ wholeOf (ms.getLast?.or last?) [ZMOD 2 ^ 64] := by
  induction ms generalizing last? with
  | nil =>
    rw [successive, List.map_nil, List.sum_nil, zero_add]
    rfl
  | cons m ms ih =>
    rw [successive, List.map_cons, List.sum_cons, getLast?_cons_or]
    calc (difference last? m).toInt + ((successive (some m) ms).map Int64.toInt).sum
          + wholeOf last?
        = ((difference last? m).toInt + wholeOf last?)
          + ((successive (some m) ms).map Int64.toInt).sum := by ring
      _ ≡ whole m + ((successive (some m) ms).map Int64.toInt).sum [ZMOD 2 ^ 64] :=
        (difference_modEq last? m).add_right _
      _ = ((successive (some m) ms).map Int64.toInt).sum + wholeOf (some m) := add_comm _ _
      _ ≡ wholeOf (ms.getLast?.or (some m)) [ZMOD 2 ^ 64] := ih (some m)

/-- Where `R` holds of whole parts whose difference does not wrap, changes
are the steps from one whole part to the next and add up as integers. -/
theorem sum_successive_of_exact {R : Int → Int → Prop}
    (hexact : ∀ {last? : Option Metric} {m : Metric}, R (wholeOf last?) (whole m) →
      (difference last? m).toInt = whole m - wholeOf last?)
    (last? : Option Metric) {ms : List Metric} (h : (wholeOf last? :: ms.map whole).IsChain R) :
    (∀ d ∈ successive last? ms, ∃ i j, R i j ∧ d.toInt = j - i)
      ∧ ((successive last? ms).map Int64.toInt).sum + wholeOf last?
        = wholeOf (ms.getLast?.or last?) := by
  induction ms generalizing last? with
  | nil => simp [successive]
  | cons m ms ih =>
    rw [List.map_cons, List.isChain_cons_cons] at h
    obtain ⟨hsteps, hsum⟩ := ih (some m) h.2
    have hm := hexact h.1
    constructor
    · rw [successive, List.forall_mem_cons]
      exact ⟨⟨_, _, h.1, hm⟩, hsteps⟩
    · rw [successive, List.map_cons, List.sum_cons, getLast?_cons_or, ← hsum, hm]
      show _ = _ + whole m
      ring

/-- In every run of a tracker before any sink, each reading of a counter
is sent on as exactly one delta, with the name, the time of the reading
and its change as a number; the changes add up to the whole part of the
last reading, modulo `2 ^ 64`; and no other write has a part in them. -/
theorem sum_changes_modEq {σ ε : Type} (down : Sink σ ε) (s : σ) (ws : List Write) (name : String)
    (hcounter : Metric.namesCounter name) :
    ((before down).final (fresh, s) ws).2
        = down.final s ((stages fresh ws).filterMap fun p => (p.1.step p.2).1)
      ∧ (changes name ws).length = (readings name ws).length
      ∧ sentOn name ws
        = List.zipWith (fun m d => some (.increment ⟨⟨name, ofInt64 d, m.observed⟩⟩))
            (readings name ws) (changes name ws)
      ∧ (∀ last, (readings name ws).getLast? = some last →
          ((changes name ws).map Int64.toInt).sum
            ≡ (truncate last.value).toInt [ZMOD 2 ^ 64])
      ∧ ∀ ws', readings name ws' = readings name ws → changes name ws' = changes name ws := by
  have hchanges : ∀ ws, changes name ws = successive none (readings name ws) :=
    onReadings_change hcounter fresh
  refine ⟨final_before down fresh s ws, length_onReadings change fresh ws,
    onReadings_step hcounter fresh ws, ?_, ?_⟩
  · intro last hlast
    have hsum := sum_successive none (readings name ws)
    have hnone : wholeOf none = 0 := rfl
    rw [hlast, hnone, add_zero, ← hchanges] at hsum
    exact hsum
  · intro ws' hreadings
    rw [hchanges, hchanges, hreadings]

/-- Over a reading beyond the 64 bit integers and one that is no number,
with another counter and a reset in between. -/
theorem sum_changes_modEq_of_overflow :
    let ws : List Write := [.record ⟨"counter.hits", -1e300, ⟨0⟩⟩,
      .record ⟨"counter.miss", 7, ⟨1⟩⟩, .reset "counter.hits" ⟨2⟩,
      .record ⟨"counter.hits", 1e300, ⟨3⟩⟩, .record ⟨"counter.hits", 0.0 / 0.0, ⟨4⟩⟩,
      .record ⟨"counter.hits", 2.5, ⟨5⟩⟩]
    changes "counter.hits" ws = [Int64.minValue, -1, Int64.minValue + 1, 2]
      ∧ ((changes "counter.hits" ws).map Int64.toInt).sum ≡ 2 [ZMOD 2 ^ 64] := by
  intro ws
  have hlast : (readings "counter.hits" ws).getLast? = some ⟨"counter.hits", 2.5, ⟨5⟩⟩ := by
    simp [readings, ws]
  obtain ⟨-, -, -, hsum, -⟩ :=
    sum_changes_modEq (Repository.sink (ε := Empty)) .empty ws "counter.hits" (by decide)
  have hwhole : (truncate 2.5).toInt = 2 := by decide +kernel
  refine ⟨by decide +kernel, ?_⟩
  have h := hsum _ hlast
  rwa [hwhole] at h

end Tracker

end MetricRelay
