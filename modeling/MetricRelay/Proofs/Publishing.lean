import MetricRelay.Proofs.Delivery
import MetricRelay.Proofs.Runs

/-!
# What producers answer, append and measure

A write to a producer makes a message or none (`message?`), and the call
ends in one of four ways: there is nothing to publish, the message cannot
be encoded, the bus refuses it, or the bus takes it. `Outcome` says of
each what is answered, what is on the bus afterwards and what was
measured, for brokers and flows alike. The account of a run is read off
these outcomes, call by call and, by induction, for the sums.
-/

namespace MetricRelay

namespace Pipeline

/-! ## Producers as they are set up -/

/-- The settings of a producer. -/
inductive Setup where
  | broker (exchange : String) (given? : Option String) (fixed : Headers) (addHeaders : Bool)
  | flow (exchange nameSpace : String)

namespace Setup

def producer : Setup → Producer
  | broker exchange given? fixed addHeaders => .broker ⟨.make exchange given? fixed, addHeaders⟩
  | flow exchange nameSpace => .flow ⟨exchange, nameSpace⟩

def exchange : Setup → String
  | broker exchange _ _ _ => exchange
  | flow exchange _ => exchange

def channel : Setup → Channel
  | broker .. => .sink
  | flow .. => .flow

/-- The routing key of a metric: of a broker the normalized prefix, a dot
and the name, of a flow nothing. -/
def routingKey (s : Setup) (name : String) : String :=
  match s with
  | broker _ given? _ _ => Routing.normalize given? ++ "." ++ name
  | flow _ _ => ""

/-- The header of a message about a metric. -/
def header? (s : Setup) (name header : String) : Option String :=
  match s with
  | broker _ given? fixed addHeaders =>
    if addHeaders then
      (fixed.get? header).or
        (if header = "metric.prefix" then some (Routing.normalize given?)
        else if header = "metric.name" then some name
        else none)
    else none
  | flow _ nameSpace => if header = "metricPrefix" then some nameSpace else none

/-- The message is that of a metric from this producer. -/
structure Addresses (s : Setup) (m : Metric) (e : Envelope) : Prop where
  destination : e.destination = s.exchange
  routingKey : e.routingKey = s.routingKey m.name
  payload : Wire.encode m = .ok e.payload
  headers : ∀ header, e.headers.get? header = s.header? m.name header

end Setup

/-! ## Outcomes of a write -/

namespace Producer

def sink : Producer → Sink Bus PublishError
  | broker b => b.sink
  | flow f => f.sink

/-- The message that a write makes, finite or not: every record and
increment, and on a broker the reset of a name that holds `counter.`, as
a zero. -/
def message? (p : Producer) : Write → Option (Variant × Metric)
  | .record m => some (.metric, m)
  | .increment d => some (.delta, d.change)
  | .reset name asked =>
    match p with
    | broker _ => if Text.holds name "counter." then some (.metric, ⟨name, 0, asked⟩) else none
    | flow _ => none

/-- What is measured of the size of a message. -/
def size (variant : Variant) (m : Metric) : Health :=
  .payloadSize variant (Wire.render m).length

/-- The ways in which a write can end, whatever is logged. -/
inductive Outcome (p : Producer) (bus : Bus) (w : Write) : Reply Bus PublishError Unit → Prop where
  | nothing (logged : List Log.Event) (hw : p.message? w = none) :
    Outcome p bus w ⟨.ok (), bus, ⟨[], logged⟩⟩
  | unencodable {variant : Variant} {m : Metric} (logged : List Log.Event)
    (hw : p.message? w = some (variant, m)) (hm : ¬ m.value.isFinite) :
    Outcome p bus w ⟨.error (.nonFinite m.name), bus, ⟨[], logged⟩⟩
  | refused {variant : Variant} {m : Metric} {reason : String} (logged : List Log.Event)
    (hw : p.message? w = some (variant, m)) (hm : m.value.isFinite)
    (hbus : bus.refusal = some reason) :
    Outcome p bus w
      ⟨.error (.refused reason), bus, ⟨[size variant m, .refused variant], logged⟩⟩
  | taken {variant : Variant} {m : Metric} (logged : List Log.Event)
    (hw : p.message? w = some (variant, m)) (hm : m.value.isFinite)
    (hbus : bus.refusal = none) :
    Outcome p bus w
      ⟨.ok (), { bus with queue := bus.queue ++ [p.envelope m] },
        ⟨[size variant m, .published variant p.publisher.channel], logged⟩⟩

variable {p : Producer} {bus : Bus} {w : Write} {variant : Variant} {m : Metric}

theorem outcome_publish (hw : p.message? w = some (variant, m)) :
    Outcome p bus w (p.publisher.publish bus variant m) := by
  unfold Publisher.publish Wire.encode
  by_cases hm : m.value.isFinite
  · rw [if_pos hm]
    dsimp only [Bus.publish]
    cases hbus : bus.refusal with
    | some reason => exact .refused _ hw hm hbus
    | none =>
      have htaken := Outcome.taken (p := p) [] hw hm hbus
      rwa [hbus] at htaken
  · rw [if_neg hm]
    exact .unencodable _ hw hm

theorem outcome_accept (p : Producer) (bus : Bus) (w : Write) :
    Outcome p bus w (p.sink.accept bus w) := by
  cases w with
  | record m => cases p <;> exact outcome_publish rfl
  | increment d => cases p <;> exact outcome_publish rfl
  | reset name asked =>
    cases p with
    | broker b =>
      dsimp only [sink, Broker.sink]
      by_cases hholds : Text.holds name "counter."
      · have hreset : Metric.counterReset? name asked = some ⟨name, 0, asked⟩ := if_pos hholds
        rw [hreset]
        exact outcome_publish (if_pos hholds)
      · have hreset : Metric.counterReset? name asked = none := if_neg hholds
        rw [hreset]
        exact .nothing _ (if_neg hholds)
    | flow f => exact .nothing _ rfl

end Producer

/-! ## The account of a call -/

namespace Setup

variable {s : Setup} {bus : Bus} {w : Write} {m : Metric} {r : Reply Bus PublishError Unit}

theorem get?_headers_broker (exchange : String) (given? : Option String) (fixed : Headers)
    (addHeaders : Bool) (name header : String) :
    ((Broker.mk (.make exchange given? fixed) addHeaders).headersFor name).get? header
      = (broker exchange given? fixed addHeaders).header? name header := by
  dsimp only [Broker.headersFor, header?]
  by_cases h : addHeaders
  · rw [if_pos h, if_pos h, Routing.headersFor, Table.get?_insertAll, Table.get?_insert,
      Table.get?_insert, Table.get?_empty]
    rfl
  · rw [if_neg h, if_neg h]
    rfl

theorem addresses_envelope (s : Setup) (hm : m.value.isFinite) :
    s.Addresses m (s.producer.envelope m) := by
  have hencode : Wire.encode m = .ok (Wire.render m) := if_pos hm
  cases s with
  | broker exchange given? fixed addHeaders =>
    exact ⟨rfl, rfl, hencode, get?_headers_broker exchange given? fixed addHeaders m.name⟩
  | flow exchange nameSpace =>
    refine ⟨rfl, rfl, hencode, fun header => ?_⟩
    have hheaders : ((flow exchange nameSpace).producer.envelope m).headers
        = Table.empty.insert "metricPrefix" nameSpace := rfl
    rw [hheaders, Table.get?_insert, Table.get?_empty]
    rfl

theorem channel_eq (s : Setup) : s.producer.publisher.channel = s.channel := by
  cases s <;> rfl

/-- How a call is accounted for: `appends` and `keeps` in messages, `sizes`
and `silent` in measurements. -/
structure Accounted (s : Setup) (bus : Bus) (w : Write) (r : Reply Bus PublishError Unit) :
    Prop where
  appends : ∀ variant m, s.producer.message? w = some (variant, m) → r.answer = .ok () →
    ∃ e, r.state.queue = bus.queue ++ [e] ∧ s.Addresses m e
  keeps : s.producer.message? w = none ∨ r.answer ≠ .ok () → r.state.queue = bus.queue
  /-- The size is measured first, and then that the message was published
  or that it was refused. -/
  sizes : ∀ variant m, s.producer.message? w = some (variant, m) → m.value.isFinite →
    ∃ payload outcome, Wire.encode m = .ok payload
      ∧ r.trail.measured = [.payloadSize variant payload.length, outcome]
      ∧ (outcome = .published variant s.channel ∧ r.answer = .ok ()
        ∨ outcome = .refused variant ∧ ∃ reason, r.answer = .error (.refused reason))
  nonFinite : ∀ variant m, s.producer.message? w = some (variant, m) → ¬ m.value.isFinite →
    r.answer = .error (.nonFinite m.name)
  silent : s.producer.message? w = none ∨ (∃ name, r.answer = .error (.nonFinite name)) →
    r.trail.measured = []

theorem accounted_of_outcome (h : s.producer.Outcome bus w r) : s.Accounted bus w r := by
  cases h with
  | nothing logged hw =>
    constructor
    case keeps => exact fun _ => rfl
    case silent => exact fun _ => rfl
    -- the other fields are about a message, and there is none
    all_goals
      intro variant m hm
      cases hw.symm.trans hm
  | unencodable logged hw hm =>
    constructor
    case appends => exact fun _ _ _ hok => nomatch hok
    case keeps => exact fun _ => rfl
    case sizes =>
      intro variant m hm' hfinite
      cases hw.symm.trans hm'
      exact absurd hfinite hm
    case nonFinite =>
      intro variant m hm' _
      cases hw.symm.trans hm'
      rfl
    case silent => exact fun _ => rfl
  | refused logged hw hm hbus =>
    constructor
    case appends => exact fun _ _ _ hok => nomatch hok
    case keeps => exact fun _ => rfl
    case sizes =>
      intro variant m hm' hfinite
      cases hw.symm.trans hm'
      exact ⟨_, _, if_pos hfinite, rfl, Or.inr ⟨rfl, _, rfl⟩⟩
    case nonFinite =>
      intro variant m hm' hfinite
      cases hw.symm.trans hm'
      exact absurd hm hfinite
    case silent =>
      rintro (hnone | ⟨name, hname⟩)
      · cases hw.symm.trans hnone
      · cases hname
  | taken logged hw hm hbus =>
    constructor
    case appends =>
      intro variant m hm' _
      cases hw.symm.trans hm'
      exact ⟨_, rfl, s.addresses_envelope hm⟩
    case keeps =>
      rintro (hnone | hne)
      · cases hw.symm.trans hnone
      · exact absurd rfl hne
    case sizes =>
      intro variant m hm' hfinite
      cases hw.symm.trans hm'
      exact ⟨_, _, if_pos hfinite, rfl, Or.inl ⟨congrArg _ s.channel_eq, rfl⟩⟩
    case nonFinite =>
      intro variant m hm' hfinite
      cases hw.symm.trans hm'
      exact absurd hm hfinite
    case silent =>
      rintro (hnone | ⟨name, hname⟩)
      · cases hw.symm.trans hnone
      · cases hname

end Setup

/-! ## The account of a run -/

/-- The reply says that the bus refused a message. -/
def sendFailed (r : Reply Bus PublishError Unit) : Bool :=
  match r.answer with
  | .error (.refused _) => true
  | _ => false

namespace Producer

variable {p : Producer} {bus : Bus} {w : Write} {r : Reply Bus PublishError Unit}

/-- A message is counted as published just when it is appended, and as
refused just when that is answered. -/
theorem Outcome.counts (h : p.Outcome bus w r) :
    r.state.queue.length = bus.queue.length
        + Health.countOf "bus.message.published" r.trail.measured
      ∧ Health.countOf "bus.publish.error" r.trail.measured
        = if sendFailed r then 1 else 0 := by
  cases h with
  | nothing logged hw => exact ⟨rfl, rfl⟩
  | unencodable logged hw hm => exact ⟨rfl, rfl⟩
  | refused logged hw hm hbus => exact ⟨rfl, rfl⟩
  | taken logged hw hm hbus => exact ⟨List.length_append, rfl⟩

theorem counts_run (p : Producer) (bus : Bus) (ws : List Write) :
    (p.sink.final bus ws).queue.length = bus.queue.length
        + Health.countOf "bus.message.published" (p.sink.measurements bus ws)
      ∧ Health.countOf "bus.publish.error" (p.sink.measurements bus ws)
        = (p.sink.replies bus ws).countP sendFailed := by
  induction ws generalizing bus with
  | nil => exact ⟨rfl, rfl⟩
  | cons w ws ih =>
    obtain ⟨hqueue, hfailed⟩ := (p.outcome_accept bus w).counts
    obtain ⟨ihqueue, ihfailed⟩ := ih (p.sink.accept bus w).state
    have hreplies : p.sink.replies bus (w :: ws)
        = p.sink.accept bus w :: p.sink.replies (p.sink.accept bus w).state ws := rfl
    have hfinal : p.sink.final bus (w :: ws) = p.sink.final (p.sink.accept bus w).state ws := rfl
    rw [p.sink.measurements_cons, hreplies, hfinal, ihqueue, hqueue, Health.countOf_append,
      Health.countOf_append, hfailed, ihfailed, List.countP_cons]
    exact ⟨Nat.add_assoc _ _ _, Nat.add_comm _ _⟩

end Producer

/-- In every run of a producer, over a bus that takes messages or refuses
them, each call is accounted for; as many messages are counted as
published as were put on the bus, and as many as refused as calls
answered so. -/
theorem accounts_for_writes (s : Setup) (bus : Bus) (ws : List Write) :
    let k := s.producer.sink
    (k.replies bus ws).length = ws.length
      ∧ (∀ i w r, ws[i]? = some w → (k.replies bus ws)[i]? = some r →
          s.Accounted (k.final bus (ws.take i)) w r)
      ∧ (k.final bus ws).queue.length = bus.queue.length
          + Health.countOf "bus.message.published" (k.measurements bus ws)
      ∧ Health.countOf "bus.publish.error" (k.measurements bus ws)
          = (k.replies bus ws).countP sendFailed := by
  intro k
  refine ⟨?_, ?_, s.producer.counts_run bus ws⟩
  · rw [k.replies_eq_inTurn, Reply.length_inTurn]
  · intro i w r hw hr
    rw [k.replies_eq_inTurn] at hr
    obtain rfl := Reply.eq_of_getElem?_inTurn hw hr
    exact Setup.accounted_of_outcome (s.producer.outcome_accept _ w)

/-- With a value that cannot be published and a reset of no counter among
the writes. -/
theorem accounts_for_writes_of_two_messages :
    let s := Setup.broker "metrics" (some "app..") .empty true
    let ws : List Write := [.record ⟨"gauge.load", 0.5, ⟨0⟩⟩,
      .record ⟨"gauge.load", 0.0 / 0.0, ⟨1⟩⟩, .reset "gauge.load" ⟨2⟩, .reset "counter.hits" ⟨3⟩]
    let k := s.producer.sink
    Health.countOf "bus.message.published" (k.measurements .empty ws) = 2
      ∧ ∃ e, (k.final .empty (ws.take 4)).queue = (k.final .empty (ws.take 3)).queue ++ [e]
        ∧ e.destination = "metrics" ∧ e.routingKey = "app.counter.hits" := by
  intro s ws k
  obtain ⟨-, hcalls, hpublished, -⟩ := accounts_for_writes s .empty ws
  refine ⟨?_, ?_⟩
  · have hqueue : (k.final .empty ws).queue.length = 2 := by decide +kernel
    have hempty : Bus.empty.queue.length = 0 := rfl
    rw [hqueue, hempty, Nat.zero_add] at hpublished
    exact hpublished.symm
  · obtain ⟨e, hqueue, he⟩ := (hcalls 3 _ _ rfl rfl).appends .metric ⟨"counter.hits", 0, ⟨3⟩⟩ rfl rfl
    exact ⟨e, hqueue, he.destination, he.routingKey.trans (by decide)⟩

end Pipeline

end MetricRelay
