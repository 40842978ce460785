import MetricRelay.Pipeline
import MetricRelay.Proofs.Tables
import MetricRelay.Proofs.Wire.RoundTrip
import Mathlib.Data.List.Induction

/-!
# A pipeline stores what its producers accept

Whatever the order of writes and deliveries, the consumer's repository
ends up as if every accepted write had been recorded in it directly. The
invariant is `InTransit`: the accepted writes of a run are those delivered
followed by those on the bus, in the order in which they were published.
A write puts one more message behind the others (`state_accept`), and a
delivery takes each message for the metric that its payload is read back
as (`onMessage_envelope`); the first needs only the producer's code, the
second only the consumer's. Where the number codec gives the values back,
that is the metric which the message was made from (`stored_eq_recorded`).
-/

namespace MetricRelay

namespace Pipeline

/-! ## Runs -/

/-- The kinds of producers that publish to the bus. -/
inductive Producer where
  | broker (b : Broker)
  | flow (f : Flow)

def Producer.assembly : Producer → Assembly
  | broker b => .broker b
  | flow f => .flow f

/-- What can happen to a pipeline: a write to the producer with a number,
or that the bus is drained into the consumer. -/
inductive Step where
  | write (producer : Nat) (w : Write)
  | deliver (clock : Nat → Instant)

/-- A pipeline with the deliveries that it has made so far. -/
abbrev Progress := List Delivery × Pipeline

def step (c : Consumer) (s : Progress) : Step → Progress
  | .write producer w => (s.1, ((s.2.write? producer w).map Reply.state).getD s.2)
  | .deliver clock => (s.1 ++ (s.2.deliver c clock).1, (s.2.deliver c clock).2.1)

/-- The steps of a run, from a pipeline that holds nothing. -/
def run (c : Consumer) (ps : List Producer) (steps : List Step) : Progress :=
  steps.foldl (step c) ([], start (ps.map Producer.assembly))

/-! ## What a run amounts to -/

namespace Producer

/-- The absolute reading that an accepted write stands for. -/
def accepts? (p : Producer) : Write → Option Metric
  | .record m => if m.value.isFinite then some m else none
  | .increment d => if d.value.isFinite then some d.change else none
  | .reset name asked =>
    match p with
    | broker _ => if Text.holds name "counter." then some ⟨name, 0, asked⟩ else none
    | flow _ => none

/-- The producer's prefix as the consumer finds it. -/
def header? (p : Producer) (c : Consumer) : Option String :=
  match c, p with
  | .listener _, broker b =>
    if b.addHeaders then
      some ((b.routing.fixedHeaders.get? "metric.prefix").getD b.routing.nameSpace)
    else none
  | .listener _, flow _ => none
  | .inbound, broker b =>
    if b.addHeaders then b.routing.fixedHeaders.get? "metricPrefix" else none
  | .inbound, flow f => some f.nameSpace

/-- What the consumer puts before the names of the producer's metrics. -/
def nameSpace (p : Producer) (c : Consumer) : String :=
  match p.header? c with
  | some h => h ++ "."
  | none =>
    match c with
    | .listener l => l.beginning
    | .inbound => ""

end Producer

/-- What a step adds to the accepted writes: the reading and its producer. -/
def accepts? (ps : List Producer) : Step → Option (Producer × Metric)
  | .write producer w => ps[producer]?.bind fun p => (p.accepts? w).map (p, ·)
  | .deliver _ => none

/-- The accepted writes of a run with their producers, in order. -/
def accepted (ps : List Producer) (steps : List Step) : List (Producer × Metric) :=
  steps.filterMap (accepts? ps)

/-- A metric as messages carry it, at a whole millisecond. -/
def carried (m : Metric) : Metric :=
  { m with observed := .ofMillis m.observed.millis }

/-- The metric that a consumer makes of an accepted write whose value is
read back. -/
def relayed (c : Consumer) (a : Producer × Metric) : Metric :=
  (carried a.2).within (a.1.nameSpace c)

/-- The metric that a consumer makes of the message of an accepted write. -/
def arriving (c : Consumer) (a : Producer × Metric) : Metric :=
  (Wire.received a.2).within (a.1.nameSpace c)

/-- A write as it can be made: metrics have names, and instants can be
observed. -/
def Sound : Write → Prop
  | .record m => m.name ≠ "" ∧ m.observed.InRange
  | .increment d => d.name ≠ "" ∧ d.observed.InRange
  | .reset _ asked => asked.InRange

def Step.Sound : Step → Prop
  | .write _ w => Pipeline.Sound w
  | .deliver _ => True

instance (t : Instant) : Decidable t.InRange :=
  inferInstanceAs (Decidable (Instant.firstMillis ≤ t.millis ∧ t.millis ≤ Instant.lastMillis))

instance : DecidablePred Sound
  | .record m => inferInstanceAs (Decidable (m.name ≠ "" ∧ m.observed.InRange))
  | .increment d => inferInstanceAs (Decidable (d.name ≠ "" ∧ d.observed.InRange))
  | .reset _ asked => inferInstanceAs (Decidable asked.InRange)

instance : DecidablePred Step.Sound
  | .write _ w => inferInstanceAs (Decidable (Pipeline.Sound w))
  | .deliver _ => inferInstanceAs (Decidable True)

/-! ## Writes -/

/-- A metric whose payload is read back, but for parts of a millisecond. -/
structure Readable (m : Metric) : Prop where
  named : m.name ≠ ""
  finite : m.value.isFinite
  observable : m.observed.InRange

variable {c : Consumer} {ps : List Producer} {p : Producer} {m : Metric} {w : Write}

theorem isFinite_zero : (0 : Float).isFinite := by decide

theorem Sound.readable (hw : Sound w) (hm : p.accepts? w = some m) : Readable m := by
  cases w with
  | record n =>
    obtain ⟨hname, hrange⟩ := hw
    rw [Producer.accepts?, Option.ite_none_right_eq_some] at hm
    obtain ⟨hfinite, hm⟩ := hm
    cases hm
    exact ⟨hname, hfinite, hrange⟩
  | increment d =>
    obtain ⟨hname, hrange⟩ := hw
    rw [Producer.accepts?, Option.ite_none_right_eq_some] at hm
    obtain ⟨hfinite, hm⟩ := hm
    cases hm
    exact ⟨hname, hfinite, hrange⟩
  | reset name asked =>
    cases p with
    | broker b =>
      rw [Producer.accepts?, Option.ite_none_right_eq_some] at hm
      obtain ⟨hholds, hm⟩ := hm
      cases hm
      refine ⟨?_, isFinite_zero, hw⟩
      rintro rfl
      exact absurd hholds (by decide)
    | flow f => cases hm

def Producer.publisher : Producer → Publisher
  | broker b => b.publisher
  | flow f => f.publisher

def Producer.envelope (p : Producer) (m : Metric) : Envelope :=
  p.publisher.address m.name (Wire.render m)

theorem state_publish (p : Publisher) (queue : List Envelope) (variant : Variant) (m : Metric) :
    (p.publish ⟨queue, none⟩ variant m).state
      = ⟨queue ++ (if m.value.isFinite then [p.address m.name (Wire.render m)] else []), none⟩ := by
  unfold Publisher.publish Wire.encode
  by_cases hx : m.value.isFinite
  · rw [if_pos hx, if_pos hx]
    rfl
  · rw [if_neg hx, if_neg hx, List.append_nil]

/-- A write leaves a producer as it was and puts the message of what is
accepted, if anything, behind the others. -/
theorem state_accept (p : Producer) (queue : List Envelope) (w : Write) :
    (p.assembly.accept ⟨queue, none⟩ w).state
      = (p.assembly, ⟨queue ++ (p.accepts? w).toList.map p.envelope, none⟩) := by
  cases w with
  | record m =>
    have hpublish : (p.assembly.accept ⟨queue, none⟩ (.record m)).state
        = (p.assembly, (p.publisher.publish ⟨queue, none⟩ .metric m).state) := by
      cases p <;> rfl
    rw [hpublish, state_publish, Producer.accepts?]
    split <;> rfl
  | increment d =>
    have hpublish : (p.assembly.accept ⟨queue, none⟩ (.increment d)).state
        = (p.assembly, (p.publisher.publish ⟨queue, none⟩ .delta d.change).state) := by
      cases p <;> rfl
    rw [hpublish, state_publish, Producer.accepts?, Delta.value]
    split <;> rfl
  | reset name asked =>
    cases p with
    | broker b =>
      have hreset : ((Producer.broker b).assembly.accept ⟨queue, none⟩ (.reset name asked)).state
          = (.broker b, (b.sink.accept ⟨queue, none⟩ (.reset name asked)).state) := rfl
      rw [hreset, Producer.accepts?]
      unfold Broker.sink Metric.counterReset? Metric.counterBeginning
      by_cases hholds : Text.holds name "counter."
      · rw [if_pos hholds]
        dsimp only
        rw [if_pos hholds, state_publish, if_pos isFinite_zero]
        rfl
      · rw [if_neg hholds]
        dsimp only
        rw [if_neg hholds, Option.toList_none, List.map_nil, List.append_nil]
        rfl
    | flow f =>
      rw [Producer.accepts?, Option.toList_none, List.map_nil, List.append_nil]
      rfl

/-! ## Messages -/

/-- The header in which a consumer looks for a prefix. -/
def prefixHeader : Consumer → String
  | .listener _ => metricPrefixHeader
  | .inbound => flowPrefixHeader

theorem get?_headers (p : Producer) (c : Consumer) (m : Metric) :
    (p.envelope m).headers.get? (prefixHeader c) = p.header? c := by
  cases p with
  | broker b =>
    have hheaders : ((Producer.broker b).envelope m).headers
        = if b.addHeaders then b.routing.headersFor m.name else .empty := rfl
    rw [hheaders]
    cases c with
    | listener l =>
      rw [Producer.header?]
      split
      · rw [Routing.headersFor, Table.get?_insertAll, prefixHeader, Table.get?_insert_self]
        unfold metricPrefixHeader
        cases b.routing.fixedHeaders.get? "metric.prefix" <;> rfl
      · rfl
    | inbound =>
      rw [Producer.header?]
      split
      · rw [Routing.headersFor, Table.get?_insertAll, prefixHeader,
          Table.get?_insert_of_ne (by decide), Table.get?_insert_of_ne (by decide),
          Table.get?_empty, Option.or_none]
        rfl
      · rfl
  | flow f =>
    cases c with
    | listener l =>
      have hne : metricPrefixHeader ≠ flowPrefixHeader := by decide
      exact Table.get?_insert_of_ne hne _ _
    | inbound => rfl

/-- The namespace that a consumer puts before a name is that of the
producer whose message it takes. -/
theorem metric_receive (c : Consumer) (p : Producer) (m n : Metric) :
    (c.receive (p.envelope m).headers n).metric = n.within (p.nameSpace c) := by
  have hheader := get?_headers p c m
  unfold Producer.nameSpace
  rw [← hheader]
  cases c with
  | listener l =>
    unfold Consumer.receive Listener.receive prefixHeader
    cases (p.envelope m).headers.get? metricPrefixHeader <;> rfl
  | inbound =>
    unfold Consumer.receive Flow.enrich prefixHeader
    cases (p.envelope m).headers.get? flowPrefixHeader <;> rfl

theorem Producer.metric_envelope (p : Producer) (hm : Readable m) (now : Instant) :
    (p.envelope m).metric now = .ok (Wire.received m) := by
  have hpayload : (p.envelope m).payload = Wire.render m := by cases p <;> rfl
  rw [Envelope.metric, hpayload]
  exact Wire.decode_render now hm.named hm.finite hm.observable

/-- A message is recorded as what its payload is read back as. -/
theorem onMessage_envelope (c : Consumer) (p : Producer) (hm : Readable m) (now : Instant)
    (r : Repository) :
    let reply := c.onMessage (Repository.sink (ε := WriteError)) now r (p.envelope m).payload
      (p.envelope m).headers
    reply.answer = .ok () ∧ reply.state = r.record (arriving c (p, m)) := by
  have hdecode : Wire.decode now (p.envelope m).payload = _ := p.metric_envelope hm now
  unfold Consumer.onMessage
  rw [hdecode]
  dsimp only
  rw [metric_receive]
  exact ⟨rfl, rfl⟩

/-! ## The invariant -/

/-- The repository that accepted writes are recorded in directly. -/
def recorded (c : Consumer) (as : List (Producer × Metric)) : Repository :=
  (as.map (relayed c)).foldl Repository.record .empty

/-- The repository that the messages of accepted writes leave. -/
def stored (c : Consumer) (as : List (Producer × Metric)) : Repository :=
  (as.map (arriving c)).foldl Repository.record .empty

theorem stored_eq_recorded (c : Consumer) {as : List (Producer × Metric)}
    (h : ∀ a ∈ as, Wire.Restored a.2.value) : stored c as = recorded c as := by
  have hsame : as.map (arriving c) = as.map (relayed c) :=
    List.map_congr_left fun a ha => by
      rw [arriving, relayed, Wire.received_of_restored (h a ha), carried]
  rw [stored, recorded, hsame]

/-- A pipeline after `steps`, of whose accepted writes the `delivered`
have reached the consumer and the `pending` are on the bus. -/
structure InTransit (c : Consumer) (ps : List Producer) (steps : List Step) (s : Progress)
    (delivered pending : List (Producer × Metric)) : Prop where
  /-- No accepted write is lost or made up. -/
  written : accepted ps steps = delivered ++ pending
  producers : s.2.producers = ps.map Producer.assembly
  bus : s.2.bus = ⟨pending.map fun a => a.1.envelope a.2, none⟩
  content : s.2.content = stored c delivered
  deliveries : s.1 = delivered.map fun a => (a.1.envelope a.2, .ok ())

variable {steps : List Step} {s : Progress} {delivered pending : List (Producer × Metric)}

theorem accepted_append (ps : List Producer) (steps more : List Step) :
    accepted ps (steps ++ more) = accepted ps steps ++ accepted ps more :=
  List.filterMap_append

theorem accepted_singleton (ps : List Producer) (st : Step) :
    accepted ps [st] = (accepts? ps st).toList := by
  unfold accepted
  rw [List.filterMap_cons]
  cases accepts? ps st <;> rfl

theorem readable_of_mem_accepted (h : ∀ st ∈ steps, st.Sound)
    {a : Producer × Metric} (ha : a ∈ accepted ps steps) : Readable a.2 := by
  obtain ⟨st, hst, heq⟩ := List.mem_filterMap.mp ha
  cases st with
  | write producer w =>
    obtain ⟨p, -, heq⟩ := Option.bind_eq_some_iff.mp heq
    obtain ⟨m, hm, rfl⟩ := Option.map_eq_some_iff.mp heq
    exact Sound.readable (h _ hst) hm
  | deliver clock => cases heq

theorem InTransit.readable (hs : InTransit c ps steps s delivered pending)
    (h : ∀ st ∈ steps, st.Sound) : ∀ a ∈ pending, Readable a.2 := by
  intro a ha
  have hmem : a ∈ accepted ps steps := by
    rw [hs.written]
    exact List.mem_append_right delivered ha
  exact readable_of_mem_accepted h hmem

theorem step_write_of_none {producer : Nat} (h : s.2.producers[producer]? = none) (w : Write) :
    step c s (.write producer w) = s := by
  have hwrite : s.2.write? producer w = none := by rw [write?, h, Option.map_none]
  dsimp only [step]
  rw [hwrite]
  rfl

theorem step_write_of_some {producer : Nat} {a : Assembly}
    (h : s.2.producers[producer]? = some a) (w : Write) :
    step c s (.write producer w)
      = (s.1, ⟨s.2.producers.set producer (a.accept s.2.bus w).state.1,
          (a.accept s.2.bus w).state.2, s.2.content⟩) := by
  dsimp only [step]
  rw [write?, h]
  rfl

theorem InTransit.write (hs : InTransit c ps steps s delivered pending) (producer : Nat)
    (w : Write) :
    InTransit c ps (steps ++ [.write producer w]) (step c s (.write producer w)) delivered
      (pending ++ accepted ps [.write producer w]) := by
  have hwritten : accepted ps (steps ++ [.write producer w])
      = delivered ++ (pending ++ accepted ps [.write producer w]) := by
    rw [accepted_append, hs.written, List.append_assoc]
  have hproducer : s.2.producers[producer]? = ps[producer]?.map Producer.assembly := by
    rw [hs.producers, List.getElem?_map]
  cases hp : ps[producer]? with
  | none =>
    rw [hp, Option.map_none] at hproducer
    have hnothing : accepted ps [.write producer w] = [] := by
      rw [accepted_singleton, accepts?, hp]
      rfl
    rw [hnothing, List.append_nil] at hwritten ⊢
    rw [step_write_of_none hproducer]
    exact ⟨hwritten, hs.producers, hs.bus, hs.content, hs.deliveries⟩
  | some p =>
    rw [hp, Option.map_some] at hproducer
    have hadded : accepted ps [.write producer w] = (p.accepts? w).toList.map (p, ·) := by
      rw [accepted_singleton, accepts?, hp, Option.bind_some]
      cases p.accepts? w <;> rfl
    obtain ⟨hlt, hget⟩ := List.getElem?_eq_some_iff.mp hp
    rw [step_write_of_some hproducer, hs.bus, state_accept]
    refine ⟨hwritten, ?_, ?_, hs.content, hs.deliveries⟩
    · dsimp only
      rw [hs.producers, ← hget, ← List.map_set, List.set_getElem_self]
    · dsimp only
      rw [hadded, List.map_append, List.map_map]
      rfl

/-! ## Deliveries -/

/-- Messages reach the consumer in order, each is answered, and each is
recorded once. -/
theorem deliverAll_envelopes (c : Consumer) {as : List (Producer × Metric)}
    (has : ∀ a ∈ as, Readable a.2) {arrivals : List (Envelope × Instant)}
    (harrivals : arrivals.map Prod.fst = as.map fun a => a.1.envelope a.2) (r : Repository) :
    (deliverAll c arrivals r).1 = as.map (fun a => (a.1.envelope a.2, .ok ()))
      ∧ (deliverAll c arrivals r).2.1 = (as.map (arriving c)).foldl Repository.record r := by
  induction as generalizing arrivals r with
  | nil =>
    obtain rfl := List.map_eq_nil_iff.mp harrivals
    exact ⟨rfl, rfl⟩
  | cons a as ih =>
    obtain ⟨⟨e, now⟩, later, rfl, he, hlater⟩ := List.map_eq_cons_iff.mp harrivals
    dsimp only at he
    subst he
    obtain ⟨hanswer, hstate⟩ := onMessage_envelope c a.1 (has a (by simp)) now r
    obtain ⟨hdeliveries, hcontent⟩ :=
      ih (fun b hb => has b (List.mem_cons_of_mem a hb)) hlater (r.record (arriving c a))
    unfold deliverAll
    dsimp only
    rw [hanswer, hstate]
    exact ⟨congrArg _ hdeliveries, hcontent⟩

theorem InTransit.deliver (hs : InTransit c ps steps s delivered pending)
    (hpending : ∀ a ∈ pending, Readable a.2) (clock : Nat → Instant) :
    InTransit c ps (steps ++ [.deliver clock]) (step c s (.deliver clock))
      (delivered ++ pending) [] := by
  have harrivals : (s.2.bus.queue.zipIdx.map fun e => (e.1, clock e.2)).map Prod.fst
      = pending.map fun a => a.1.envelope a.2 := by
    rw [hs.bus, List.map_map]
    exact List.zipIdx_map_fst 0 _
  obtain ⟨hdeliveries, hcontent⟩ := deliverAll_envelopes c hpending harrivals s.2.content
  refine ⟨?_, hs.producers, ?_, hcontent.trans ?_, ?_⟩
  · rw [accepted_append, hs.written, List.append_nil]
    exact List.append_nil _
  · show ({ s.2.bus with queue := [] } : Bus) = _
    rw [hs.bus]
    rfl
  · rw [hs.content, stored, stored, List.map_append, List.foldl_append]
  · rw [List.map_append, ← hdeliveries, ← hs.deliveries]
    rfl

/-! ## Runs -/

theorem run_append_singleton (c : Consumer) (ps : List Producer) (steps : List Step)
    (st : Step) : run c ps (steps ++ [st]) = step c (run c ps steps) st := by
  simp only [run, List.foldl_append, List.foldl_cons, List.foldl_nil]

theorem inTransit_run (c : Consumer) (ps : List Producer)
    (h : ∀ st ∈ steps, st.Sound) :
    ∃ delivered pending, InTransit c ps steps (run c ps steps) delivered pending := by
  induction steps using List.reverseRecOn with
  | nil => exact ⟨[], [], rfl, rfl, rfl, rfl, rfl⟩
  | append_singleton steps st ih =>
    have hbefore : ∀ st ∈ steps, st.Sound := fun st hst => h st (List.mem_append_left _ hst)
    obtain ⟨delivered, pending, hs⟩ := ih hbefore
    rw [run_append_singleton]
    cases st with
    | write producer w => exact ⟨_, _, hs.write producer w⟩
    | deliver clock => exact ⟨_, _, hs.deliver (hs.readable hbefore) clock⟩

theorem inTransit_run_deliver (c : Consumer) (ps : List Producer)
    (h : ∀ st ∈ steps, st.Sound) (clock : Nat → Instant) :
    InTransit c ps (steps ++ [.deliver clock]) (run c ps (steps ++ [.deliver clock]))
      (accepted ps steps) [] := by
  obtain ⟨delivered, pending, hs⟩ := inTransit_run c ps h
  rw [run_append_singleton, hs.written]
  exact hs.deliver (hs.readable h) clock

/-- After a last delivery every message has been taken, as many as writes
were accepted, none is left, and the repository is the one in which what
the messages are read back as was recorded, in order, under the consumer's
names. Where the number codec gives the values back, these are the accepted
writes. -/
theorem stores_accepted (c : Consumer) (ps : List Producer) (steps : List Step)
    (h : ∀ st ∈ steps, st.Sound) (clock : Nat → Instant) :
    let s := run c ps (steps ++ [.deliver clock])
    (∀ d ∈ s.1, d.2 = .ok ()) ∧ s.1.length = (accepted ps steps).length
      ∧ s.2.bus = .empty ∧ s.2.content = stored c (accepted ps steps)
      ∧ ((∀ a ∈ accepted ps steps, Wire.Restored a.2.value) →
        s.2.content = ((accepted ps steps).map (relayed c)).foldl Repository.record .empty) := by
  intro s
  have hs : InTransit c ps _ s _ _ := inTransit_run_deliver c ps h clock
  refine ⟨?_, ?_, hs.bus, hs.content,
    fun hrestored => hs.content.trans (stored_eq_recorded c hrestored)⟩
  · intro d hd
    rw [hs.deliveries] at hd
    obtain ⟨a, -, rfl⟩ := List.mem_map.mp hd
    rfl
  · rw [hs.deliveries, List.length_map]

theorem stores_accepted_of_two_producers :
    let ps : List Producer :=
      [.broker ⟨.make "metrics" (some "app.") .empty, true⟩, .flow ⟨"flows", "edge"⟩]
    let steps : List Step :=
      [.write 0 (.record ⟨"gauge.load", 0.5, ⟨1500000⟩⟩), .deliver fun _ => ⟨0⟩,
        .write 1 (.increment ⟨⟨"counter.hits", 2, ⟨0⟩⟩⟩), .write 0 (.reset "counter.hits" ⟨0⟩)]
    let s := run (.listener (.make "rest")) ps (steps ++ [.deliver fun _ => ⟨0⟩])
    (∀ d ∈ s.1, d.2 = .ok ()) ∧ s.1.length = 3 ∧ s.2.bus = .empty
      ∧ s.2.content.all = [⟨"app.counter.hits", 0, ⟨0⟩⟩, ⟨"app.gauge.load", 0.5, ⟨1000000⟩⟩,
          ⟨"rest.counter.hits", 2, ⟨0⟩⟩] := by
  intro ps steps s
  have hsound : ∀ st ∈ steps, st.Sound := by decide
  obtain ⟨hok, hcount, hbus, -, hcontent⟩ :=
    stores_accepted (.listener (.make "rest")) ps steps hsound fun _ => ⟨0⟩
  have haccepted : accepted ps steps = [(ps[0], ⟨"gauge.load", 0.5, ⟨1500000⟩⟩),
      (ps[1], ⟨"counter.hits", 2, ⟨0⟩⟩), (ps[0], ⟨"counter.hits", 0, ⟨0⟩⟩)] := rfl
  rw [haccepted] at hcount hcontent
  refine ⟨hok, hcount, hbus, ?_⟩
  rw [hcontent (by decide +kernel)]
  decide +kernel

end Pipeline

end MetricRelay
