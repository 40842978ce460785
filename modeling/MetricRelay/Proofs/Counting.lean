import MetricRelay.Agent
import MetricRelay.Proofs.Runs
import MetricRelay.Proofs.Telescoping

/-!
# A tracker before a statsd agent

The agent takes the whole part of a change that the tracker computed as an
integer and sent on as a floating point number. As long as the change fits
the significand nothing is lost on the way (`truncate_ofInt64`), and the
difference does not wrap either. The counts of a counter are then its
changes (`countsOf_stages`), which telescope as integers
(`sum_successive_of_gradual`) where `sum_successive` only has them modulo
`2 ^ 64`. The readings themselves may be of any size.
-/

namespace MetricRelay

open Number (Fits truncate ofInt64)
open Statsd (Measurement)

namespace Agent

variable {a : Agent}

/-! ## What reaches the agent -/

/-- The measurement that a write is sent as. -/
def measured? : Write → Option Measurement
  | .record m => some (gauge m)
  | .increment d => some (count d)
  | .reset _ _ => none

theorem accept_of_reached (ha : a.fault = none) (sent : List Measurement) (w : Write) :
    (a.sink.accept sent w).answer = .ok ()
      ∧ (a.sink.accept sent w).state = sent ++ (measured? w).toList := by
  cases w with
  | record m => simp [sink, send, ha, Reply.ok, measured?]
  | increment d => simp [sink, send, ha, Reply.ok, measured?]
  | reset name asked => simp [sink, measured?]

theorem final_of_reached (ha : a.fault = none) (sent : List Measurement) (ws : List Write) :
    a.sink.final sent ws = sent ++ ws.filterMap measured? := by
  induction ws generalizing sent with
  | nil => simp [Sink.final]
  | cons w ws ih =>
    have hcons : a.sink.final sent (w :: ws) = a.sink.final (a.sink.accept sent w).state ws := rfl
    rw [hcons, (accept_of_reached ha sent w).2, ih, List.append_assoc, List.filterMap_cons]
    cases measured? w <;> rfl

theorem line_count (a : Agent) (d : Delta) :
    a.line (count d) = Statsd.beginning a.nameSpace ++ d.name ++ ":"
      ++ Number.integer (truncate d.value).toInt ++ "|c" := by
  simp [line, Measurement.line, count, Statsd.Value.text, Statsd.Kind.mark, Statsd.tagText,
    String.append_assoc]

theorem line_gauge (a : Agent) (m : Metric) :
    a.line (gauge m) = Statsd.beginning a.nameSpace ++ m.name ++ ":"
      ++ Number.Layout.display.write m.value ++ "|g" := by
  simp [line, Measurement.line, gauge, Statsd.Value.text, Statsd.Kind.mark, Statsd.tagText,
    String.append_assoc]

/-- The number that a measurement counts under a name. -/
def counted? (name : String) (x : Measurement) : Option Int :=
  match x.kind, x.value with
  | .count, .integer n => if x.name = name then some n else none
  | _, _ => none

/-- The numbers that are counted under a name, in order. -/
def countsOf (name : String) (sent : List Measurement) : List Int :=
  sent.filterMap (counted? name)

/-- What an agent behind a tracker makes of a write in the state `s`. -/
structure Reported (a : Agent) (s : Tracker × List Measurement) (w : Write)
    (r : Reply (Tracker × List Measurement) AgentFault Unit) : Prop where
  answer : r.answer = .ok ()
  /-- One line is sent for a counter's reading, and it is a count. -/
  counter : ∀ m, w = .record m → m.isCounter → ∃ x n,
    r.state.2 = s.2 ++ [x] ∧ counted? m.name x = some n
      ∧ a.line x = Statsd.beginning a.nameSpace ++ m.name ++ ":" ++ Number.integer n ++ "|c"
  /-- One line is sent for another reading, and it is a gauge. -/
  other : ∀ m, w = .record m → ¬ m.isCounter → ∃ x,
    r.state.2 = s.2 ++ [x] ∧ (∀ name, counted? name x = none)
      ∧ a.line x = Statsd.beginning a.nameSpace ++ m.name ++ ":"
        ++ Number.Layout.display.write m.value ++ "|g"
  reset : ∀ name asked, w = .reset name asked → r.state.2 = s.2

end Agent

namespace Tracker

variable {a : Agent} {name : String} {m : Metric} {last? : Option Metric} {ms : List Metric}
  {ws : List Write} {t : Tracker}

theorem reported_accept (ha : a.fault = none) (t : Tracker) (sent : List Measurement)
    (w : Write) : a.Reported (t, sent) w ((before a.sink).accept (t, sent) w) := by
  rw [accept_before]
  cases w with
  | record m =>
    by_cases hm : m.isCounter
    · obtain ⟨hanswer, hstate⟩ := Agent.accept_of_reached ha sent (.increment (t.sent m))
      rw [(step_counter hm t).1]
      constructor
      case answer => exact hanswer
      case counter =>
        intro n hn _
        cases hn
        exact ⟨_, _, hstate, if_pos rfl, a.line_count (t.sent m)⟩
      case other =>
        intro n hn hother
        cases hn
        exact absurd hm hother
      case reset =>
        intro n asked hn
        cases hn
    · obtain ⟨hanswer, hstate⟩ := Agent.accept_of_reached ha sent (.record m)
      rw [(step_other hm t).1]
      constructor
      case answer => exact hanswer
      case counter =>
        intro n hn hcounter
        cases hn
        exact absurd hcounter hm
      case other =>
        intro n hn _
        cases hn
        exact ⟨_, hstate, fun _ => rfl, a.line_gauge m⟩
      case reset =>
        intro n asked hn
        cases hn
  | increment d =>
    constructor
    case answer => exact (Agent.accept_of_reached ha sent (.increment d)).1
    all_goals
      intros
      contradiction
  | reset name asked =>
    constructor
    case answer => rfl
    case reset => exact fun _ _ _ => rfl
    all_goals
      intros
      contradiction

/-! ## Changes that fit -/

/-- The whole parts of the readings, starting from zero, go from one to
the next by integers that fit the significand. -/
def Gradual (ms : List Metric) : Prop :=
  (0 :: ms.map whole).IsChain fun m n => Fits (n - m)

instance (ms : List Metric) : Decidable (Gradual ms) :=
  inferInstanceAs (Decidable (List.IsChain _ _))

theorem toInt_difference (h : Fits (whole m - wholeOf last?)) :
    (difference last? m).toInt = whole m - wholeOf last? := by
  cases last? with
  | none => exact (sub_zero (whole m)).symm
  | some last => exact Number.toInt_sub_of_fits h

theorem sum_successive_of_gradual (last? : Option Metric)
    (h : (wholeOf last? :: ms.map whole).IsChain fun m n => Fits (n - m)) :
    (∀ d ∈ successive last? ms, Fits d.toInt)
      ∧ ((successive last? ms).map Int64.toInt).sum + wholeOf last?
        = wholeOf (ms.getLast?.or last?) := by
  obtain ⟨hsteps, hsum⟩ := sum_successive_of_exact toInt_difference last? h
  refine ⟨?_, hsum⟩
  intro d hd
  obtain ⟨i, j, hfits, heq⟩ := hsteps d hd
  rwa [heq]

/-! ## Counts of a run -/

/-- A step counts the change of a reading of the counter `name`, and
nothing under this name otherwise. -/
theorem counted_step (hcounter : Metric.namesCounter name) (t : Tracker) {w : Write}
    (hcall : ∀ d, w ≠ .increment d)
    (hfits : ∀ m, reading? name w = some m → Fits (t.change m).toInt) :
    ((t.step w).1.bind fun v => (Agent.measured? v).bind (Agent.counted? name))
      = (reading? name w).map fun m => (t.change m).toInt := by
  cases w with
  | record m =>
    by_cases hm : m.isCounter
    · have hcounted : Agent.counted? name (Agent.count (t.sent m))
          = if m.name = name then some (truncate (ofInt64 (t.change m))).toInt else none := rfl
      rw [(step_counter hm t).1, Option.bind_some, Agent.measured?, Option.bind_some, hcounted]
      by_cases hname : m.name = name
      · have hreading : reading? name (.record m) = some m := if_pos hname
        rw [if_pos hname, hreading, Number.truncate_ofInt64 (hfits m hreading)]
        rfl
      · have hreading : reading? name (.record m) = none := if_neg hname
        rw [if_neg hname, hreading]
        rfl
    · have hname : m.name ≠ name := by
        rintro rfl
        exact hm hcounter
      have hreading : reading? name (.record m) = none := if_neg hname
      rw [hreading, (step_other hm t).1]
      rfl
  | increment d => exact absurd rfl (hcall d)
  | reset n asked => rfl

theorem countsOf_stages (hcounter : Metric.namesCounter name)
    (hcalls : ∀ d, Write.increment d ∉ ws)
    (hfits : ∀ d ∈ onReadings name change t ws, Fits d.toInt) :
    Agent.countsOf name
        (((stages t ws).filterMap fun p => (p.1.step p.2).1).filterMap Agent.measured?)
      = (onReadings name change t ws).map Int64.toInt := by
  rw [Agent.countsOf, List.filterMap_filterMap, List.filterMap_filterMap]
  induction ws generalizing t with
  | nil => rfl
  | cons w ws ih =>
    rw [onReadings_cons] at hfits ⊢
    have hhead := counted_step hcounter t (w := w) (fun d hd => hcalls d (by simp [hd]))
      fun m hm => hfits _ (by simp [hm])
    have htail := ih (t := (t.step w).2.1) (fun d hd => hcalls d (List.mem_cons_of_mem _ hd))
      fun d hd => hfits d (List.mem_append_right _ hd)
    rw [stages, List.filterMap_cons, List.map_append, htail]
    dsimp only
    rw [hhead]
    cases reading? name w <;> rfl

/-- Before an agent that takes every line, a tracker sends one count for
each reading of a counter and one gauge for each other reading, and what is
counted for a counter adds up to the whole part of its last reading. -/
theorem counts_add_up (a : Agent) (ha : a.fault = none) (ws : List Write)
    (hcalls : ∀ d, Write.increment d ∉ ws)
    (hgradual : ∀ name, Metric.namesCounter name → Gradual (readings name ws)) :
    let k := before a.sink
    (k.replies (fresh, []) ws).length = ws.length
      ∧ (∀ i w r, ws[i]? = some w → (k.replies (fresh, []) ws)[i]? = some r →
          a.Reported (k.final (fresh, []) (ws.take i)) w r)
      ∧ ∀ name, Metric.namesCounter name → ∀ last, (readings name ws).getLast? = some last →
          (Agent.countsOf name (k.final (fresh, []) ws).2).sum = (truncate last.value).toInt := by
  intro k
  refine ⟨?_, ?_, ?_⟩
  · rw [k.replies_eq_inTurn, Reply.length_inTurn]
  · intro i w r hw hr
    rw [k.replies_eq_inTurn] at hr
    obtain rfl := Reply.eq_of_getElem?_inTurn hw hr
    exact reported_accept ha _ _ w
  · intro name hcounter last hlast
    obtain ⟨hfits, hsum⟩ := sum_successive_of_gradual none (hgradual name hcounter)
    have hchanges : onReadings name change fresh ws = successive none (readings name ws) :=
      onReadings_change hcounter fresh ws
    rw [← hchanges] at hfits hsum
    have hcounts := countsOf_stages hcounter hcalls hfits
    rw [final_before, Agent.final_of_reached ha, List.nil_append, hcounts]
    rw [hlast] at hsum
    exact (add_zero _).symm.trans hsum

/-- A counter that grows beyond the integers that fit, in steps that do. -/
theorem counts_add_up_beyond_significand :
    let a : Agent := ⟨"app.", none⟩
    let k := before a.sink
    let ws : List Write := [.record ⟨"counter.hits", 9007199254740992.0, ⟨0⟩⟩,
      .record ⟨"gauge.load", 0.25, ⟨1⟩⟩, .reset "counter.hits" ⟨2⟩,
      .record ⟨"counter.hits", 18014398509481984.0, ⟨3⟩⟩]
    (Agent.countsOf "counter.hits" (k.final (fresh, []) ws).2).sum = 2 ^ 54
      ∧ ∃ r x n, (k.replies (fresh, []) ws)[3]? = some r
        ∧ r.state.2 = (k.final (fresh, []) (ws.take 3)).2 ++ [x]
        ∧ a.line x = "app.counter.hits:" ++ Number.integer n ++ "|c" := by
  intro a k ws
  have hcalls : ∀ d, Write.increment d ∉ ws := by simp [ws]
  have hgradual : ∀ name, Metric.namesCounter name → Gradual (readings name ws) := by
    intro name hname
    by_cases hhits : "counter.hits" = name
    · subst hhits
      have hreadings : readings "counter.hits" ws = [⟨"counter.hits", 9007199254740992.0, ⟨0⟩⟩,
          ⟨"counter.hits", 18014398509481984.0, ⟨3⟩⟩] := by
        simp [readings, ws]
      rw [hreadings]
      decide +kernel
    · have hload : "gauge.load" ≠ name := by
        rintro rfl
        exact absurd hname (by decide)
      have hreadings : readings name ws = [] := by
        simp [readings, ws, hhits, hload]
      rw [hreadings]
      exact List.isChain_singleton 0
  have hlast : (readings "counter.hits" ws).getLast?
      = some ⟨"counter.hits", 18014398509481984.0, ⟨3⟩⟩ := by
    simp [readings, ws]
  obtain ⟨hlength, hreported, hsum⟩ := counts_add_up a rfl ws hcalls hgradual
  have hwhole : (truncate 18014398509481984.0).toInt = 2 ^ 54 := by decide +kernel
  refine ⟨(hsum "counter.hits" (by decide) _ hlast).trans hwhole, ?_⟩
  have hreply := List.getElem?_eq_getElem (l := k.replies (fresh, []) ws) (i := 3)
    (by rw [hlength]; decide)
  obtain ⟨x, n, hsent, -, hline⟩ := (hreported 3 _ _ rfl hreply).counter _ rfl (by decide)
  have hbeginning :
      Statsd.beginning a.nameSpace ++ "counter.hits" ++ ":" = "app.counter.hits:" := by
    decide
  rw [hbeginning] at hline
  exact ⟨_, x, n, hreply, hsent, hline⟩

end Tracker

end MetricRelay
