import MetricRelay.Proofs.Telescoping
import MetricRelay.Recording

/-!
# Readings that are refused

A tracker remembers a reading before the sink behind it is asked, and what
the sink answers does not change that (`state_accept_before`). A refused
reading is therefore the one that the next is compared with, as a taken
one is, and its change is lost: what the sink takes of a counter falls
short of the last reading by exactly the changes that it refused
(`sum_taken_add_refused`).
-/

namespace MetricRelay

open Number (truncate ofInt64)

namespace Tracker

variable {σ ε : Type} (down : Sink σ ε)

/-! ## The cache after a write -/

theorem state_accept_before (t : Tracker) (s : σ) (w : Write) :
    ((before down).accept (t, s) w).state.1 = (t.step w).2.1 := by
  rw [accept_before]
  cases (t.step w).1 <;> rfl

theorem change_remember (t : Tracker) (m : Metric) : (t.remember m).change m = 0 := by
  rw [change, remember, Table.get?_insert_self]
  exact Int64.sub_self _

theorem derive_remember {m : Metric} (hm : m.isCounter) (t : Tracker) :
    ((t.remember m).derive m).1 = some ⟨{ m with value := 0 }⟩ := by
  rw [derive, if_pos hm, change_remember]
  rfl

/-! ## What a run loses -/

/-- The changes of a name that the sink takes in a run, or those that it
refuses. -/
def changesAnswered (taken : Bool) (name : String) (t : Tracker) (s : σ) (ws : List Write) :
    List Int64 :=
  ((stages t ws).zip ((before down).replies (t, s) ws)).filterMap fun (p, r) =>
    if r.answer.isOk = taken then (reading? name p.2).map (change p.1) else none

theorem changesAnswered_cons (taken : Bool) (name : String) (t : Tracker) (s : σ) (w : Write)
    (ws : List Write) :
    let r := (before down).accept (t, s) w
    changesAnswered down taken name t s (w :: ws)
      = (if r.answer.isOk = taken then (reading? name w).map (change t) else none).toList
        ++ changesAnswered down taken name (t.step w).2.1 r.state.2 ws := by
  intro r
  have hstate : r.state = ((t.step w).2.1, r.state.2) :=
    Prod.ext (state_accept_before down t s w) rfl
  have hreplies : (before down).replies (t, s) (w :: ws)
      = r :: (before down).replies ((t.step w).2.1, r.state.2) ws := by
    rw [← hstate]
    rfl
  rw [changesAnswered, stages, hreplies, List.zip_cons_cons, List.filterMap_cons]
  dsimp only
  cases (if r.answer.isOk = taken then (reading? name w).map (change t) else none) <;> rfl

theorem sum_taken_add_refused (name : String) (t : Tracker) (s : σ) (ws : List Write) :
    ((changesAnswered down true name t s ws).map Int64.toInt).sum
        + ((changesAnswered down false name t s ws).map Int64.toInt).sum
      = ((onReadings name change t ws).map Int64.toInt).sum := by
  induction ws generalizing t s with
  | nil => rfl
  | cons w ws ih =>
    rw [changesAnswered_cons, changesAnswered_cons, onReadings_cons]
    have hrest := ih (t.step w).2.1 ((before down).accept (t, s) w).state.2
    cases ((before down).accept (t, s) w).answer.isOk with
    | true =>
      simp only [reduceIte, Bool.true_eq_false, Option.toList_none, List.nil_append,
        List.map_append, List.sum_append, ← hrest]
      ring
    | false =>
      simp only [reduceIte, Bool.false_eq_true, Option.toList_none, List.nil_append,
        List.map_append, List.sum_append, ← hrest]
      ring

/-- A tracker keeps a counter's reading whatever the sink behind it
answers: the same reading again stands for no change, and in every run the
changes that the sink takes of a counter and those that it refuses make up
the way from the reading before the run to the last one. -/
theorem refused_reading_stays (t : Tracker) (s : σ) :
    (∀ m : Metric,
        let after := ((before down).accept (t, s) (.record m)).state.1
        if m.isCounter then
          (∀ name, after.last.get? name = if name = m.name then some m else t.last.get? name)
            ∧ (after.derive m).1 = some ⟨{ m with value := 0 }⟩
        else after = t)
      ∧ ∀ ws name last, Metric.namesCounter name → (readings name ws).getLast? = some last →
          ((changesAnswered down true name t s ws).map Int64.toInt).sum
              + ((changesAnswered down false name t s ws).map Int64.toInt).sum
              + wholeOf (t.last.get? name)
            ≡ (truncate last.value).toInt [ZMOD 2 ^ 64] := by
  constructor
  · intro m after
    have hafter : after = (t.step (.record m)).2.1 := state_accept_before down t s (.record m)
    split
    · next hm =>
      rw [(step_counter hm t).2] at hafter
      rw [hafter]
      exact ⟨fun name => Table.get?_insert t.last m.name name m, derive_remember hm t⟩
    · next hm => exact hafter.trans (step_other hm t).2
  · intro ws name last hcounter hlast
    have hsum := sum_successive (t.last.get? name) (readings name ws)
    rw [hlast, ← onReadings_change hcounter] at hsum
    rw [sum_taken_add_refused]
    exact hsum

/-- The sink refuses the first write and takes all others. -/
theorem refused_reading_stays_of_first :
    let down : Sink Nat Unit :=
      ⟨fun calls _ => ⟨if calls = 0 then .error () else .ok (), calls + 1, .none⟩⟩
    let m : Metric := ⟨"counter.hits", 5, ⟨0⟩⟩
    let ws : List Write := [.record m, .record ⟨"counter.hits", 8, ⟨1⟩⟩]
    let r := (before down).accept (fresh, 0) (.record m)
    r.answer = .error () ∧ r.state.1.last.get? "counter.hits" = some m
      ∧ changesAnswered down true "counter.hits" fresh 0 ws = [3]
      ∧ 3 + ((changesAnswered down false "counter.hits" fresh 0 ws).map Int64.toInt).sum
        ≡ 8 [ZMOD 2 ^ 64] := by
  intro down m ws r
  obtain ⟨hcache, hsums⟩ := refused_reading_stays down fresh 0
  have hm := hcache m
  rw [if_pos (show m.isCounter from by decide)] at hm
  have hlast : (readings "counter.hits" ws).getLast? = some ⟨"counter.hits", 8, ⟨1⟩⟩ := by
    simp [readings, ws, m]
  have hsum := hsums ws "counter.hits" _ (by decide) hlast
  have htaken : changesAnswered down true "counter.hits" fresh 0 ws = [3] := by decide +kernel
  have hthree : ([3].map Int64.toInt).sum = 3 := by decide
  have hnone : wholeOf (fresh.last.get? "counter.hits") = 0 := rfl
  have hwhole : (truncate 8).toInt = 8 := by decide +kernel
  rw [htaken, hthree, hnone, add_zero, hwhole] at hsum
  exact ⟨by decide +kernel, hm.1 "counter.hits", htaken, hsum⟩

/-- The cache is not what it was before a refused reading, and the reading
does not stand for the same change again. -/
theorem refused_reading_not_forgotten :
    let down := Recording.sink ⟨["rejected"]⟩
    let m : Metric := ⟨"counter.hits", 5, ⟨0⟩⟩
    let r := (before down).accept (fresh, []) (.record m)
    r.answer = .error ["rejected"]
      ∧ r.state.1 ≠ fresh
      ∧ (fresh.derive m).1 = some ⟨m⟩
      ∧ (r.state.1.derive m).1 = some ⟨{ m with value := 0 }⟩
      ∧ ((changesAnswered down true "counter.hits" fresh [] [.record m]).map Int64.toInt).sum
        ≠ (truncate m.value).toInt := by
  intro down m r
  have hcache : r.state.1.last.get? "counter.hits" ≠ fresh.last.get? "counter.hits" := by
    decide +kernel
  refine ⟨by decide +kernel, ?_, by decide +kernel, by decide +kernel, by decide +kernel⟩
  intro heq
  rw [heq] at hcache
  exact hcache rfl

end Tracker

end MetricRelay
