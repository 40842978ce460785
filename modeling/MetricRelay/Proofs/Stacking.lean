import MetricRelay.Proofs.Runs
import MetricRelay.Proofs.Telescoping

/-!
# Trackers behind trackers

What a tracker sends on is never a reading of a counter: such a reading
becomes an increment, a reset ends, and all else is no reading of a counter
to begin with. So a second tracker behind it has nothing to do
(`step_of_sent`): it hands every write on as it is, remembers nothing and
measures nothing. Each reply of the stack is therefore the reply of the
single tracker, seen as part of a larger state (`accept_stacked`), and so is
each reply of a run (`replies_mapState`).
-/

namespace MetricRelay

namespace Sink

variable {σ τ ε : Type} {k : Sink σ ε} {k' : Sink τ ε} {f : σ → τ}

theorem replies_mapState (h : ∀ s w, k'.accept (f s) w = (k.accept s w).mapState f) (s : σ)
    (ws : List Write) : k'.replies (f s) ws = (k.replies s ws).map (Reply.mapState f) := by
  induction ws generalizing s with
  | nil => rfl
  | cons w ws ih =>
    rw [replies, h, replies, List.map_cons]
    exact congrArg _ (ih _)

theorem final_mapState (h : ∀ s w, k'.accept (f s) w = (k.accept s w).mapState f) (s : σ)
    (ws : List Write) : k'.final (f s) ws = f (k.final s ws) := by
  induction ws generalizing s with
  | nil => rfl
  | cons w ws ih =>
    have hcons : k'.final (f s) (w :: ws) = k'.final (k'.accept (f s) w).state ws := rfl
    rw [hcons, h]
    exact ih _

end Sink

namespace Tracker

variable {σ ε : Type} {t : Tracker} {w v : Write}

/-- What a tracker sends on, any other one sends on as it is. -/
theorem step_of_sent (h : (t.step w).1 = some v) (u : Tracker) : u.step v = (some v, u, .none) := by
  cases w with
  | record m =>
    by_cases hm : m.isCounter
    · rw [(step_counter hm t).1] at h
      cases h
      rfl
    · rw [(step_other hm t).1] at h
      cases h
      simp only [step, derive, if_neg hm]
  | increment d =>
    cases h
    rfl
  | reset name asked => cases h

/-- The second tracker is not noticed, whatever it remembers. -/
theorem accept_stacked (down : Sink σ ε) (u : Tracker) (d : Tracker × σ) (w : Write) :
    (before (before down)).accept (d.1, u, d.2) w
      = ((before down).accept d w).mapState fun d => (d.1, u, d.2) := by
  obtain ⟨t, s⟩ := d
  rw [accept_before (before down), accept_before down]
  dsimp only
  cases h : (t.step w).1 with
  | none => rfl
  | some v =>
    dsimp only
    rw [accept_before down, step_of_sent h]
    rfl

/-- Two trackers before a sink are one tracker: in every run both reply
alike to every write, with the same answer, the same measurements and log
events in the same order, and the same state behind them, and the sink is
asked the same writes. The inner tracker never remembers anything. -/
theorem stacked_like_single (down : Sink σ ε) (s : σ) (ws : List Write) :
    let single := before down.noting
    let stacked := before (before down.noting)
    let start := (fresh, s, [])
    let start' := (fresh, fresh, s, [])
    stacked.replies start' ws
        = (single.replies start ws).map (Reply.mapState fun d => (d.1, fresh, d.2))
      ∧ stacked.answers start' ws = single.answers start ws
      ∧ stacked.measurements start' ws = single.measurements start ws
      ∧ (stacked.final start' ws).2.2 = (single.final start ws).2
      ∧ (∀ r ∈ stacked.replies start' ws, r.state.2.1 = fresh)
      ∧ (stacked.final start' ws).2.1 = fresh := by
  intro single stacked start start'
  have hreplies : stacked.replies start' ws
      = (single.replies start ws).map (Reply.mapState fun d => (d.1, fresh, d.2)) :=
    Sink.replies_mapState (accept_stacked down.noting fresh) start ws
  have hfinal : stacked.final start' ws
      = ((single.final start ws).1, fresh, (single.final start ws).2) :=
    Sink.final_mapState (accept_stacked down.noting fresh) start ws
  refine ⟨hreplies, ?_, ?_, ?_, ?_, ?_⟩
  · rw [Sink.answers, hreplies, List.map_map]
    rfl
  · rw [Sink.measurements, hreplies, List.flatMap_map]
    rfl
  · rw [hfinal]
  · intro r hr
    rw [hreplies] at hr
    obtain ⟨r, -, rfl⟩ := List.mem_map.mp hr
    rfl
  · rw [hfinal]

end Tracker

end MetricRelay
