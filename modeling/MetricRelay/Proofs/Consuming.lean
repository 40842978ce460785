import MetricRelay.Consumer
import MetricRelay.Proofs.Runs
import MetricRelay.Recording
import Mathlib.Data.List.Basic

/-!
# What consumers answer, record and measure

A message either does not decode, and then it is counted, answered and
leaves the local sink alone, or it is one record in the local sink, whose
refusal is the answer (`Outcome`). Both hold of every consumer, every
sink and every state of the sink. Hence a run of messages is the run of
the records made of those that decode (`stateAfter_take`), and the others
could as well not have arrived (`inTurn_filter`).
-/

namespace MetricRelay

/-! ## Payloads that decode -/

namespace Wire

/-- The payload carries a metric. -/
def Decodes (payload : List UInt8) : Prop := ∃ now m, decode now payload = .ok m

variable {payload : List UInt8} {fault : Fault}

theorem Reader.finish_eq_error {r : Reader} {now : Instant} (h : r.finish now = .error fault)
    (later : Instant) : r.finish later = .error fault := by
  obtain ⟨⟨name, value, timestamp⟩, phase⟩ := r
  cases phase with
  | closed =>
    cases name with
    | none => exact h
    | some name =>
      cases value with
      | none => exact h
      | some value => cases h
  | _ => exact h

/-- The fault of a payload does not depend on when it is read. -/
theorem decode_eq_error {now : Instant} (h : decode now payload = .error fault)
    (later : Instant) : decode later payload = .error fault := by
  have hread : ∀ t, decode t payload = (readAll payload).bind fun r => r.finish t := fun _ => rfl
  rw [hread] at h ⊢
  cases hr : readAll payload with
  | error e =>
    rw [hr] at h
    exact h
  | ok r =>
    rw [hr] at h
    exact Reader.finish_eq_error h later

theorem decodes_iff (now : Instant) : Decodes payload ↔ ∃ m, decode now payload = .ok m := by
  refine ⟨?_, fun ⟨m, hm⟩ => ⟨now, m, hm⟩⟩
  rintro ⟨t, m, hm⟩
  cases hnow : decode now payload with
  | error fault => cases hm.symm.trans (decode_eq_error hnow t)
  | ok n => exact ⟨n, rfl⟩

instance : DecidablePred Decodes := fun payload =>
  match h : decode ⟨0⟩ payload with
  | .ok m => .isTrue ⟨_, m, h⟩
  | .error fault => .isFalse fun hp => by
    obtain ⟨m, hm⟩ := (decodes_iff ⟨0⟩).mp hp
    cases h.symm.trans hm

theorem not_decodes_iff (now : Instant) :
    ¬ Decodes payload ↔ ∃ fault, decode now payload = .error fault := by
  rw [decodes_iff now]
  cases decode now payload with
  | error fault =>
    refine ⟨fun _ => ⟨fault, rfl⟩, ?_⟩
    rintro - ⟨m, ⟨⟩⟩
  | ok m =>
    refine ⟨fun h => absurd ⟨m, rfl⟩ h, ?_⟩
    rintro ⟨fault, ⟨⟩⟩

end Wire

/-! ## Outcomes of a message -/

/-- A message as it reaches a consumer. -/
structure Arrival where
  payload : List UInt8
  headers : Headers
  now : Instant

namespace Consumer

variable {σ ε : Type}

/-- The consumer takes a message. -/
def take (c : Consumer) (k : Sink σ ε) (s : σ) (a : Arrival) : Reply σ (ReceiveError ε) Unit :=
  c.onMessage k a.now s a.payload a.headers

/-- The metric that a message stands for, under its full name. -/
def metric? (c : Consumer) (a : Arrival) : Option Metric :=
  (Wire.decode a.now a.payload).toOption.map fun m => (c.receive a.headers m).metric

/-- What the local sink is asked in a run of messages. -/
def calls (c : Consumer) (as : List Arrival) : List Write :=
  (as.filterMap c.metric?).map .record

/-- The ways in which a message can end, whatever is logged. -/
inductive Outcome (c : Consumer) (k : Sink σ ε) (s : σ) (a : Arrival) :
    Reply σ (ReceiveError ε) Unit → Prop where
  | dropped {fault : Wire.Fault} (logged : List Log.Event)
    (ha : Wire.decode a.now a.payload = .error fault) :
    Outcome c k s a ⟨.error (.invalidPayload fault), s, ⟨[.undecodable], logged⟩⟩
  | recorded {m : Metric} (fromHeader : Bool) (logged : List Log.Event)
    (ha : c.metric? a = some m) :
    Outcome c k s a
      ⟨(k.accept s (.record m)).answer.mapError .forward, (k.accept s (.record m)).state,
        ⟨.received fromHeader :: (k.accept s (.record m)).trail.measured, logged⟩⟩

variable {c : Consumer} {k : Sink σ ε} {s : σ} {a : Arrival} {as : List Arrival}
  {r : Reply σ (ReceiveError ε) Unit}

theorem measured_receive (c : Consumer) (headers : Headers) (m : Metric) :
    ∃ fromHeader, (c.receive headers m).trail.measured = [.received fromHeader] := by
  cases c with
  | listener l =>
    dsimp only [receive, Listener.receive, namespaced]
    cases headers.get? metricPrefixHeader with
    | none => exact ⟨false, rfl⟩
    | some header => exact ⟨true, rfl⟩
  | inbound =>
    dsimp only [receive, Flow.enrich, namespaced]
    cases headers.get? flowPrefixHeader with
    | none => exact ⟨false, rfl⟩
    | some header => exact ⟨true, rfl⟩

theorem outcome_take (c : Consumer) (k : Sink σ ε) (s : σ) (a : Arrival) :
    Outcome c k s a (c.take k s a) := by
  unfold take onMessage
  cases ha : Wire.decode a.now a.payload with
  | error fault => exact .dropped _ ha
  | ok m =>
    have hmetric : c.metric? a = some (c.receive a.headers m).metric := by
      rw [metric?, ha]
      rfl
    obtain ⟨fromHeader, hmeasured⟩ := measured_receive c a.headers m
    have hrecorded := Outcome.recorded (k := k) (s := s) fromHeader
      ((c.receive a.headers m).trail.logged
        ++ (k.accept s (.record (c.receive a.headers m).metric)).trail.logged) hmetric
    rw [← List.singleton_append, ← hmeasured] at hrecorded
    exact hrecorded

theorem metric?_eq_none_iff : c.metric? a = none ↔ ¬ Wire.Decodes a.payload := by
  rw [Wire.not_decodes_iff a.now, metric?, Option.map_eq_none_iff]
  cases Wire.decode a.now a.payload with
  | error fault => exact ⟨fun _ => ⟨fault, rfl⟩, fun _ => rfl⟩
  | ok m =>
    constructor
    · rintro ⟨⟩
    · rintro ⟨fault, ⟨⟩⟩

/-! ## The account of a message -/

/-- How the answer to a message is accounted for, the local sink being in
the state `s`. -/
structure Accounted (c : Consumer) (k : Sink σ ε) (s : σ) (a : Arrival)
    (r : Reply σ (ReceiveError ε) Unit) : Prop where
  invalid : (∃ fault, r.answer = .error (.invalidPayload fault)) ↔ ¬ Wire.Decodes a.payload
  untouched : ¬ Wire.Decodes a.payload → r.state = s
  forward : ∀ cause, r.answer = .error (.forward cause) ↔
    ∃ m, c.metric? a = some m ∧ (k.accept s (.record m)).answer = .error cause

theorem decodes_of_metric? {m : Metric} (ha : c.metric? a = some m) : Wire.Decodes a.payload := by
  refine Decidable.of_not_not fun h => ?_
  cases (metric?_eq_none_iff.mpr h).symm.trans ha

theorem mapError_forward_eq_iff {answer : Except ε Unit} {cause : ε} :
    answer.mapError ReceiveError.forward = .error (.forward cause) ↔ answer = .error cause := by
  cases answer with
  | ok u => exact ⟨nofun, nofun⟩
  | error e =>
    constructor
    · rintro ⟨⟩
      rfl
    · rintro ⟨⟩
      rfl

theorem mapError_forward_ne (answer : Except ε Unit) (fault : Wire.Fault) :
    answer.mapError ReceiveError.forward ≠ .error (.invalidPayload fault) := by
  cases answer <;> exact nofun

theorem Outcome.accounted (h : Outcome c k s a r) : c.Accounted k s a r := by
  cases h with
  | @dropped fault logged ha =>
    have hnot : ¬ Wire.Decodes a.payload := (Wire.not_decodes_iff a.now).mpr ⟨fault, ha⟩
    refine ⟨⟨fun _ => hnot, fun _ => ⟨fault, rfl⟩⟩, fun _ => rfl, fun cause => ⟨nofun, ?_⟩⟩
    rintro ⟨m, hm, -⟩
    exact absurd (decodes_of_metric? hm) hnot
  | @recorded m fromHeader logged ha =>
    have hdecodes : Wire.Decodes a.payload := decodes_of_metric? ha
    refine ⟨⟨?_, fun h => absurd hdecodes h⟩, fun h => absurd hdecodes h, fun cause => ?_⟩
    · rintro ⟨fault, hfault⟩
      exact absurd hfault (mapError_forward_ne _ fault)
    · refine mapError_forward_eq_iff.trans ⟨fun hrefused => ⟨m, ha, hrefused⟩, ?_⟩
      rintro ⟨n, hn, hrefused⟩
      cases ha.symm.trans hn
      exact hrefused

/-! ## Runs of messages -/

theorem calls_cons (c : Consumer) (a : Arrival) (as : List Arrival) :
    c.calls (a :: as) = c.calls [a] ++ c.calls as := by
  rw [calls, calls, calls, ← List.map_append, ← List.filterMap_append]
  rfl

/-- The message leaves the local sink as the calls for it do, and measures
what it is besides what these measure. -/
theorem Outcome.counts (h : Outcome c k s a r) :
    r.state = k.final s (c.calls [a])
      ∧ Health.countOf "bus.message.received" r.trail.measured
        = [a].countP (Wire.Decodes ·.payload)
          + Health.countOf "bus.message.received" (k.measurements s (c.calls [a]))
      ∧ Health.countOf "bus.message.invalid" r.trail.measured
        = [a].countP (¬ Wire.Decodes ·.payload)
          + Health.countOf "bus.message.invalid" (k.measurements s (c.calls [a])) := by
  cases h with
  | @dropped fault logged ha =>
    have hnot : ¬ Wire.Decodes a.payload := (Wire.not_decodes_iff a.now).mpr ⟨fault, ha⟩
    have hcalls : c.calls [a] = [] := by
      rw [calls, List.filterMap_cons, metric?_eq_none_iff.mpr hnot]
      rfl
    rw [hcalls, List.countP_singleton, List.countP_singleton]
    simp only [hnot]
    exact ⟨rfl, rfl, rfl⟩
  | @recorded m fromHeader logged ha =>
    have hdecodes : Wire.Decodes a.payload := decodes_of_metric? ha
    have hcalls : c.calls [a] = [.record m] := by
      rw [calls, List.filterMap_cons, ha]
      rfl
    have hmeasured : k.measurements s [.record m] = (k.accept s (.record m)).trail.measured :=
      List.append_nil _
    rw [hcalls, hmeasured, List.countP_singleton, List.countP_singleton,
      ← List.singleton_append, Health.countOf_append, Health.countOf_append]
    simp only [hdecodes]
    exact ⟨rfl, rfl, rfl⟩

theorem stateAfter_take (c : Consumer) (k : Sink σ ε) (s : σ) (as : List Arrival) :
    Reply.stateAfter (c.take k) s as = k.final s (c.calls as) := by
  induction as generalizing s with
  | nil => rfl
  | cons a as ih =>
    have hcons : Reply.stateAfter (c.take k) s (a :: as)
        = Reply.stateAfter (c.take k) (c.take k s a).state as := rfl
    rw [hcons, ih, (outcome_take c k s a).counts.1, calls_cons c a as, k.final_append]

theorem counts_inTurn (c : Consumer) (k : Sink σ ε) (s : σ) (as : List Arrival) :
    Health.countOf "bus.message.received" (Reply.measured (Reply.inTurn (c.take k) s as))
        = as.countP (Wire.Decodes ·.payload)
          + Health.countOf "bus.message.received" (k.measurements s (c.calls as))
      ∧ Health.countOf "bus.message.invalid" (Reply.measured (Reply.inTurn (c.take k) s as))
        = as.countP (¬ Wire.Decodes ·.payload)
          + Health.countOf "bus.message.invalid" (k.measurements s (c.calls as)) := by
  induction as generalizing s with
  | nil => exact ⟨rfl, rfl⟩
  | cons a as ih =>
    obtain ⟨hstate, hreceived, hinvalid⟩ := (outcome_take c k s a).counts
    obtain ⟨ihreceived, ihinvalid⟩ := ih (c.take k s a).state
    rw [Reply.inTurn, Reply.measured_cons, calls_cons c a as, k.measurements_append, ← hstate,
      ← List.singleton_append, List.countP_append, List.countP_append]
    simp only [Health.countOf_append, hreceived, hinvalid, ihreceived, ihinvalid]
    constructor <;> omega

/-- The replies to the messages that decode are those of a run in which
the others do not arrive. -/
theorem inTurn_filter (c : Consumer) (k : Sink σ ε) (s : σ) (as : List Arrival) :
    Reply.inTurn (c.take k) s (as.filter (Wire.Decodes ·.payload))
      = ((as.zip (Reply.inTurn (c.take k) s as)).filter (Wire.Decodes ·.1.payload)).map
          Prod.snd := by
  induction as generalizing s with
  | nil => rfl
  | cons a as ih =>
    rw [Reply.inTurn, List.zip_cons_cons]
    by_cases ha : Wire.Decodes a.payload
    · rw [List.filter_cons_of_pos (by simpa using ha), List.filter_cons_of_pos (by simpa using ha),
        Reply.inTurn, List.map_cons, ih]
    · have hstate : (c.take k s a).state = s := (outcome_take c k s a).accounted.untouched ha
      rw [List.filter_cons_of_neg (by simpa using ha), List.filter_cons_of_neg (by simpa using ha),
        hstate, ih]

theorem calls_filter (c : Consumer) (as : List Arrival) :
    c.calls (as.filter (Wire.Decodes ·.payload)) = c.calls as := by
  rw [calls, calls, List.filterMap_filter]
  refine congrArg _ (List.filterMap_congr fun a _ => ?_)
  by_cases ha : Wire.Decodes a.payload
  · rw [if_pos (by simpa using ha)]
  · rw [if_neg (by simpa using ha), metric?_eq_none_iff.mpr ha]

theorem map_some_metrics (c : Consumer) (as : List Arrival) :
    (as.filterMap c.metric?).map some
      = (as.filter (Wire.Decodes ·.payload)).map c.metric? := by
  rw [List.map_filterMap_some_eq_filter_map_isSome, List.filter_map]
  refine congrArg _ (List.filter_congr fun a _ => ?_)
  rw [Function.comp_apply, Bool.eq_iff_iff, decide_eq_true_iff, Option.isSome_iff_ne_none, ne_eq,
    metric?_eq_none_iff, Decidable.not_not]

/-- In every run of messages the local sink takes one record for each that
decodes, in order, and nothing else; each answer says whether the message
decoded and whether the sink refused it; besides what the sink measures
itself, each message is counted as received or as invalid; and without
those that do not decode, the sink ends the same and all else is replied
the same. -/
theorem accounts_for_messages (c : Consumer) (k : Sink σ ε) (s : σ) (as : List Arrival) :
    let rs := Reply.inTurn (c.take k) s as
    let calls := (as.filterMap c.metric?).map Write.record
    let kept := as.filter (Wire.Decodes ·.payload)
    (Reply.stateAfter (c.take k.noting) (s, []) as = (Reply.stateAfter (c.take k) s as, calls)
        ∧ (as.filterMap c.metric?).map some = kept.map c.metric?)
      ∧ rs.length = as.length
      ∧ (∀ i a r, as[i]? = some a → rs[i]? = some r →
          c.Accounted k (Reply.stateAfter (c.take k) s (as.take i)) a r)
      ∧ Health.countOf "bus.message.received" (Reply.measured rs)
          = as.countP (Wire.Decodes ·.payload)
            + Health.countOf "bus.message.received" (k.measurements s calls)
      ∧ Health.countOf "bus.message.invalid" (Reply.measured rs)
          = as.countP (¬ Wire.Decodes ·.payload)
            + Health.countOf "bus.message.invalid" (k.measurements s calls)
      ∧ Reply.stateAfter (c.take k) s kept = Reply.stateAfter (c.take k) s as
      ∧ Reply.inTurn (c.take k) s kept
          = ((as.zip rs).filter (Wire.Decodes ·.1.payload)).map Prod.snd := by
  intro rs calls kept
  obtain ⟨hreceived, hinvalid⟩ := counts_inTurn c k s as
  refine ⟨⟨?_, map_some_metrics c as⟩, Reply.length_inTurn s as, ?_, hreceived, hinvalid, ?_,
    inTurn_filter c k s as⟩
  · rw [stateAfter_take, stateAfter_take, k.final_noting, List.nil_append]
    rfl
  · intro i a r ha hr
    obtain rfl := Reply.eq_of_getElem?_inTurn ha hr
    exact (outcome_take c k _ a).accounted
  · rw [stateAfter_take, stateAfter_take, calls_filter]

/-- A truncated payload and one that decodes, before a sink that refuses
every record. -/
theorem accounts_for_messages_of_refusing_sink :
    let k := Recording.sink ⟨["rejected"]⟩
    let cut : Arrival := ⟨[0x5B], .empty, ⟨0⟩⟩
    let whole : Arrival := ⟨[0x5B, 0x22, 0x78, 0x22, 0x2C, 0x31, 0x5D], .empty, ⟨7⟩⟩
    let take := inbound.take k
    (take [] whole).answer = .error (.forward ["rejected"])
      ∧ Health.countOf "bus.message.invalid"
          (Reply.measured (Reply.inTurn take [] [cut, whole])) = 1
      ∧ Reply.stateAfter take [] [whole] = Reply.stateAfter take [] [cut, whole] := by
  intro k cut whole take
  obtain ⟨-, -, hanswers, -, hinvalid, hstate, -⟩ :=
    accounts_for_messages inbound k [] [cut, whole]
  refine ⟨?_, hinvalid.trans ?_, ?_⟩
  · refine ((hanswers 1 whole _ rfl rfl).forward ["rejected"]).mpr ⟨⟨"x", 1, ⟨7⟩⟩, ?_, rfl⟩
    decide
  · decide
  · rw [← hstate]
    rfl

end Consumer

end MetricRelay
