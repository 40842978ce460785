import MetricRelay.Assembly
import MetricRelay.Consumer
import MetricRelay.Proofs.Grouping
import MetricRelay.Proofs.Wire.Forwarding

/-!
# No metric is without a name

Only `Metric.make?` and the reader of payloads look at names; resets,
renamings, deltas and aggregates are put together without a check. Still
none of them can lose a name: a reset has `counter.` in it, a renamed
metric ends in its old name, an aggregate in a key that is not empty.

`World.Reachable` is every state that the operations lead to, in any
order and number: values that have come about, sinks with what they have
stored or sent on, and buses. A sink behind several trackers needs no
case of its own, it takes what they derive as writes. `World.Named` is
kept by each operation, and hence holds of all of them.
-/

namespace MetricRelay

/-! ## Names of what there is -/

def Write.Named : Write → Prop
  | .record m => m.name ≠ ""
  | .increment d => d.name ≠ ""
  | .reset _ _ => True

/-- Every value of the table has a name of its own. -/
def Table.Named (t : Table Metric) : Prop := ∀ m ∈ t.values, m.name ≠ ""

/-- The message was made of a metric with a name. -/
def Envelope.Named (e : Envelope) : Prop := ∃ m : Metric, m.name ≠ "" ∧ e.payload = Wire.render m

def Bus.Named (b : Bus) : Prop := ∀ e ∈ b.queue, e.Named

/-- Everything that an assembly has noted, stored, sent or cached has a
name. -/
def Assembly.Named : Assembly → Prop
  | recording _ noted => ∀ w ∈ noted, w.Named
  | repository content => content.stored.Named
  | agent _ sent => ∀ line ∈ sent, line.name ≠ ""
  | tracker t down => t.last.Named ∧ down.Named
  | broker _ => True
  | flow _ => True

/-! ## Stores -/

variable {m : Metric} {w : Write} {name : String}

theorem Table.Named.insert {t : Table Metric} (h : t.Named) (hm : m.name ≠ "") (name : String) :
    (t.insert name m).Named := by
  intro n hn
  obtain ⟨key, hkey⟩ := mem_values_iff.mp hn
  rw [get?_insert] at hkey
  split at hkey
  · cases hkey
    exact hm
  · exact h n (mem_values_iff.mpr ⟨key, hkey⟩)

theorem Table.Named.erase {t : Table Metric} (h : t.Named) (name : String) :
    (t.erase name).Named := by
  intro n hn
  obtain ⟨key, hkey⟩ := mem_values_iff.mp hn
  rw [get?_erase] at hkey
  split at hkey
  · cases hkey
  · exact h n (mem_values_iff.mpr ⟨key, hkey⟩)

theorem Repository.named_write {r : Repository} (h : r.stored.Named) (hw : w.Named) :
    (r.write w).stored.Named := by
  cases w with
  | record m => exact h.insert hw m.name
  | increment d =>
    rw [write, increment]
    cases hheld : r.stored.get? d.name with
    | none => exact h.insert hw d.name
    | some m =>
      have hm : m.name ≠ "" := h m (Table.mem_values_iff.mpr ⟨_, hheld⟩)
      exact h.insert (m := changed m d) hm d.name
  | reset name asked => exact h.erase name

/-! ## Trackers -/

theorem Tracker.named_derive {t : Tracker} (h : t.last.Named) (hm : m.name ≠ "") :
    (∀ d, (t.derive m).1 = some d → d.name ≠ "") ∧ (t.derive m).2.1.last.Named := by
  unfold derive
  split
  · refine ⟨?_, h.insert hm m.name⟩
    rintro d hd
    cases hd
    exact hm
  · refine ⟨?_, h⟩
    rintro d ⟨⟩

/-- What a tracker sends on has a name, and so has what it remembers. -/
theorem Tracker.named_step {t : Tracker} (h : t.last.Named) (hw : w.Named) :
    (∀ v, (t.step w).1 = some v → v.Named) ∧ (t.step w).2.1.last.Named := by
  cases w with
  | record m =>
    obtain ⟨hdelta, hlast⟩ := named_derive h hw
    rw [step]
    rcases hderive : t.derive m with ⟨- | d, t', trail⟩
    · rw [hderive] at hlast
      refine ⟨?_, hlast⟩
      rintro v hv
      cases hv
      exact hw
    · rw [hderive] at hdelta hlast
      refine ⟨?_, hlast⟩
      rintro v hv
      cases hv
      exact hdelta d rfl
  | increment d =>
    refine ⟨?_, h⟩
    rintro v hv
    cases hv
    exact hw
  | reset name asked =>
    refine ⟨?_, h⟩
    rintro v ⟨⟩

/-! ## Publishing -/

theorem Metric.named_make? {value : Float} {observed : Instant}
    (h : make? name value observed = some m) : m.name ≠ "" := by
  rw [make?, Option.ite_none_left_eq_some] at h
  obtain ⟨hne, hm⟩ := h
  cases hm
  exact hne

theorem Metric.named_counterReset {asked : Instant} (h : counterReset? name asked = some m) :
    m.name ≠ "" := by
  rw [counterReset?, Option.ite_none_right_eq_some] at h
  obtain ⟨hholds, hm⟩ := h
  cases hm
  rintro rfl
  exact absurd hholds (by decide)

theorem Metric.named_within (namespaceText : String) (hm : m.name ≠ "") :
    (m.within namespaceText).name ≠ "" := by
  simp [within, hm]

theorem Wire.eq_render_of_encode {payload : List UInt8} (h : encode m = .ok payload) :
    payload = render m := by
  unfold encode at h
  split at h
  · cases h
    rfl
  · cases h

theorem Publisher.named_publish {p : Publisher} {bus : Bus} (hbus : bus.Named)
    (hp : ∀ name payload, (p.address name payload).payload = payload) (variant : Variant)
    (hm : m.name ≠ "") : (p.publish bus variant m).state.Named := by
  unfold publish
  cases hencode : Wire.encode m with
  | error e => exact hbus
  | ok payload =>
    dsimp only [Bus.publish]
    cases bus.refusal with
    | some reason => exact hbus
    | none =>
      refine List.forall_mem_append.mpr ⟨hbus, List.forall_mem_singleton.mpr ?_⟩
      exact ⟨m, hm, (hp _ _).trans (Wire.eq_render_of_encode hencode)⟩

theorem Broker.named_accept {b : Broker} {bus : Bus} (hbus : bus.Named) (hw : w.Named) :
    (b.sink.accept bus w).state.Named := by
  have hpublish : ∀ variant {m : Metric}, m.name ≠ "" →
      (b.publisher.publish bus variant m).state.Named :=
    fun variant _ hm => Publisher.named_publish hbus (fun _ _ => rfl) variant hm
  cases w with
  | record m => exact hpublish .metric hw
  | increment d => exact hpublish .delta hw
  | reset name asked =>
    dsimp only [sink]
    split
    · next zero hzero => exact hpublish .metric (Metric.named_counterReset hzero)
    · exact hbus

theorem Flow.named_accept {f : Flow} {bus : Bus} (hbus : bus.Named) (hw : w.Named) :
    (f.sink.accept bus w).state.Named := by
  have hpublish : ∀ variant {m : Metric}, m.name ≠ "" →
      (f.publisher.publish bus variant m).state.Named :=
    fun variant _ hm => Publisher.named_publish hbus (fun _ _ => rfl) variant hm
  cases w with
  | record m => exact hpublish .metric hw
  | increment d => exact hpublish .delta hw
  | reset name asked => exact hbus

/-! ## Sinks -/

theorem Agent.named_send {a : Agent} {sent : List Statsd.Measurement} {line : Statsd.Measurement}
    (h : ∀ l ∈ sent, l.name ≠ "") (hline : line.name ≠ "") :
    ∀ l ∈ (a.send sent line).state, l.name ≠ "" := by
  unfold send
  cases a.fault with
  | some reason => exact h
  | none => exact List.forall_mem_append.mpr ⟨h, List.forall_mem_singleton.mpr hline⟩

/-- A write with a name leaves only names, in the sink that takes it, in
those behind it and on the bus. -/
theorem Assembly.Named.accept {a : Assembly} {bus : Bus} (ha : a.Named) (hbus : bus.Named)
    (hw : w.Named) : (a.accept bus w).state.1.Named ∧ (a.accept bus w).state.2.Named := by
  induction a generalizing w with
  | recording k noted =>
    exact ⟨List.forall_mem_append.mpr ⟨ha, List.forall_mem_singleton.mpr hw⟩, hbus⟩
  | repository content => exact ⟨Repository.named_write ha hw, hbus⟩
  | agent k sent =>
    refine ⟨?_, hbus⟩
    cases w with
    | record m => exact Agent.named_send ha hw
    | increment d => exact Agent.named_send ha hw
    | reset name asked => exact ha
  | tracker t down ih =>
    obtain ⟨hlast, hdown⟩ := ha
    obtain ⟨hsent, hlast'⟩ := Tracker.named_step hlast hw
    rw [Assembly.accept, Tracker.relay]
    rcases hstep : t.step w with ⟨- | v, t', trail⟩
    · rw [hstep] at hlast'
      exact ⟨⟨hlast', hdown⟩, hbus⟩
    · rw [hstep] at hsent hlast'
      obtain ⟨hdown', hbus'⟩ := ih hdown (hsent v rfl)
      exact ⟨⟨hlast', hdown'⟩, hbus'⟩
  | broker b => exact ⟨trivial, Broker.named_accept hbus hw⟩
  | flow f => exact ⟨trivial, Flow.named_accept hbus hw⟩

theorem Assembly.Named.innermost {a : Assembly} (ha : a.Named) : a.innermost.Named := by
  induction a with
  | tracker t down ih => exact ih ha.2
  | _ => exact ha

/-! ## Consumers -/

theorem named_namespaced (header? : Option String) (otherwise : String) (hm : m.name ≠ "") :
    (namespaced header? otherwise m).metric.name ≠ "" := by
  cases header? with
  | some header => exact Metric.named_within _ hm
  | none => exact Metric.named_within _ hm

theorem Consumer.named_receive (c : Consumer) (headers : Headers) (hm : m.name ≠ "") :
    (c.receive headers m).metric.name ≠ "" := by
  cases c with
  | listener l => exact named_namespaced _ _ hm
  | inbound => exact named_namespaced _ _ hm

variable {a : Assembly} {bus : Bus}

theorem Listener.named_process (ha : a.Named) (hbus : bus.Named) (l : Listener)
    (header? : Option String) (hm : m.name ≠ "") :
    (l.process Assembly.sink (a, bus) header? m).state.1.Named
      ∧ (l.process Assembly.sink (a, bus) header? m).state.2.Named :=
  ha.accept (w := .record _) hbus (named_namespaced header? l.beginning hm)

theorem Consumer.named_onMessage (ha : a.Named) (hbus : bus.Named) (c : Consumer) (now : Instant)
    (payload : List UInt8) (headers : Headers) :
    (c.onMessage Assembly.sink now (a, bus) payload headers).state.1.Named
      ∧ (c.onMessage Assembly.sink now (a, bus) payload headers).state.2.Named := by
  unfold onMessage
  cases hdecode : Wire.decode now payload with
  | error fault => exact ⟨ha, hbus⟩
  | ok m =>
    have hm : m.name ≠ "" := (Wire.sound_of_decode hdecode).1
    exact ha.accept (w := .record _) hbus (c.named_receive headers hm)

/-! ## Aggregates -/

theorem KeyPattern.named_of_keyFor? {p : KeyPattern} {key : String}
    (h : p.keyFor? name = some key) : key ≠ "" := by
  unfold keyFor? at h
  split at h
  · cases h
  · dsimp only at h
    split at h
    · cases h
    · next hne =>
      cases h
      exact hne

/-- An aggregate has a name whatever the names of its sources are and
however short the names of aggregates begin. -/
theorem Aggregator.named_aggregate {a : Aggregator} {sources : List Metric} {key : String}
    (h : (a.aggregates sources).get? key = some m) : m.name ≠ "" := by
  rw [get?_aggregates] at h
  have hgroup : a.group key sources ≠ [] := by
    intro hnil
    rw [hnil] at h
    cases h
  obtain ⟨n, hn⟩ := List.exists_mem_of_ne_nil _ hgroup
  have hkey : key ≠ "" :=
    KeyPattern.named_of_keyFor? (of_decide_eq_true (List.mem_filter.mp hn).2)
  rw [(combines_of_combined? h).name]
  simp [hkey]

/-! ## Everything that can come about -/

/-- What has come about: values, sinks with their state, and buses. -/
structure World where
  metrics : List Metric
  deltas : List Delta
  sinks : List Assembly
  buses : List Bus

/-- A sink that has not taken a write yet. -/
inductive Assembly.Fresh : Assembly → Prop where
  | recording (k : Recording) : Fresh (.recording k [])
  | repository : Fresh (.repository .empty)
  | agent (a : Agent) : Fresh (.agent a [])
  | broker (b : Broker) : Fresh (.broker b)
  | flow (f : Flow) : Fresh (.flow f)

theorem Assembly.Fresh.named {a : Assembly} (ha : a.Fresh) : a.Named := by
  cases ha with
  | recording k => exact nofun
  | repository => exact nofun
  | agent k => exact nofun
  | broker b => trivial
  | flow f => trivial

namespace World

/-- The writes that can be made of the values there are. -/
def Offers (s : World) : Write → Prop
  | .record m => m ∈ s.metrics
  | .increment d => d ∈ s.deltas
  | .reset _ _ => True

/-- The metrics that an operation can return. -/
inductive Gives (s : World) : Metric → Prop where
  | made {name : String} {value : Float} {observed : Instant} {m : Metric}
      (h : Metric.make? name value observed = some m) : Gives s m
  | decoded {now : Instant} {payload : List UInt8} {m : Metric}
      (h : Wire.decode now payload = .ok m) : Gives s m
  | zero {name : String} {asked : Instant} {m : Metric}
      (h : Metric.counterReset? name asked = some m) : Gives s m
  | renamed (namespaceText : String) {m : Metric} (h : m ∈ s.metrics) :
      Gives s (m.within namespaceText)
  | received (c : Consumer) (headers : Headers) {m : Metric} (h : m ∈ s.metrics) :
      Gives s (c.receive headers m).metric
  | change {d : Delta} (h : d ∈ s.deltas) : Gives s d.change
  | found {a : Assembly} {r : Repository} {name : String} {m : Metric} (ha : a ∈ s.sinks)
      (hr : a.innermost = .repository r) (h : r.find? name = some m) : Gives s m
  | listed {a : Assembly} {r : Repository} {m : Metric} (ha : a ∈ s.sinks)
      (hr : a.innermost = .repository r) (h : m ∈ r.all) : Gives s m
  | aggregateFound (a : Aggregator) {sources : List Metric} {name : String} {m : Metric}
      (hsources : ∀ n ∈ sources, n ∈ s.metrics) (h : (a.find? sources name).1 = some m) :
      Gives s m
  | aggregateListed (a : Aggregator) {sources : List Metric} {m : Metric}
      (hsources : ∀ n ∈ sources, n ∈ s.metrics) (h : m ∈ (a.all sources).1) : Gives s m

/-- The deltas that an operation can return, those of trackers apart. -/
inductive GivesDelta : Delta → Prop where
  | made {name : String} {value : Float} {observed : Instant} {d : Delta}
      (h : Delta.make? name value observed = some d) : GivesDelta d
  | decoded {now : Instant} {payload : List UInt8} {m : Metric}
      (h : Wire.decode now payload = .ok m) : GivesDelta ⟨m⟩

/-- The world after a step of the sink with number `i` on the bus with
number `j`. -/
def settle (s : World) (i j : Nat) (after : Assembly × Bus) : World :=
  { s with sinks := s.sinks.set i after.1, buses := s.buses.set j after.2 }

/-- The states that operations lead to. -/
inductive Reachable : World → Prop where
  | start : Reachable ⟨[], [], [], []⟩
  | connect {s : World} (hs : Reachable s) (refusal : Option String) :
      Reachable { s with buses := s.buses ++ [⟨[], refusal⟩] }
  | attach {s : World} (hs : Reachable s) {a : Assembly} (ha : a.Fresh) :
      Reachable { s with sinks := s.sinks ++ [a] }
  | wrap {s : World} (hs : Reachable s) {i : Nat} {a : Assembly} (ha : s.sinks[i]? = some a) :
      Reachable { s with sinks := s.sinks.set i (.tracker .fresh a) }
  | metric {s : World} (hs : Reachable s) {m : Metric} (hm : s.Gives m) :
      Reachable { s with metrics := m :: s.metrics }
  | delta {s : World} (hs : Reachable s) {d : Delta} (hd : GivesDelta d) :
      Reachable { s with deltas := d :: s.deltas }
  | derive {s : World} (hs : Reachable s) {i : Nat} {t : Tracker} {down : Assembly}
      (ht : s.sinks[i]? = some (.tracker t down)) {m : Metric} (hm : m ∈ s.metrics) :
      Reachable { s with
        deltas := (t.derive m).1.toList ++ s.deltas
        sinks := s.sinks.set i (.tracker (t.derive m).2.1 down) }
  | write {s : World} (hs : Reachable s) {i j : Nat} {a : Assembly} {bus : Bus}
      (ha : s.sinks[i]? = some a) (hbus : s.buses[j]? = some bus) {w : Write} (hw : s.Offers w) :
      Reachable (s.settle i j (a.accept bus w).state)
  | process {s : World} (hs : Reachable s) {i j : Nat} {a : Assembly} {bus : Bus}
      (ha : s.sinks[i]? = some a) (hbus : s.buses[j]? = some bus) (l : Listener)
      (header? : Option String) {m : Metric} (hm : m ∈ s.metrics) :
      Reachable (s.settle i j (l.process Assembly.sink (a, bus) header? m).state)
  | message {s : World} (hs : Reachable s) {i j : Nat} {a : Assembly} {bus : Bus}
      (ha : s.sinks[i]? = some a) (hbus : s.buses[j]? = some bus) (c : Consumer) (now : Instant)
      (payload : List UInt8) (headers : Headers) :
      Reachable (s.settle i j (c.onMessage Assembly.sink now (a, bus) payload headers).state)
  | drain {s : World} (hs : Reachable s) {j : Nat} {bus : Bus} (hbus : s.buses[j]? = some bus) :
      Reachable { s with buses := s.buses.set j bus.drain.2 }

/-- Everything there is has a name. -/
structure Named (s : World) : Prop where
  metrics : ∀ m ∈ s.metrics, m.name ≠ ""
  deltas : ∀ d ∈ s.deltas, d.name ≠ ""
  sinks : ∀ a ∈ s.sinks, a.Named
  buses : ∀ b ∈ s.buses, b.Named

variable {s : World}

theorem Named.offers (hs : s.Named) (hw : s.Offers w) : w.Named := by
  cases w with
  | record m => exact hs.metrics m hw
  | increment d => exact hs.deltas d hw
  | reset name asked => trivial

theorem Named.gives (hs : s.Named) (hm : s.Gives m) : m.name ≠ "" := by
  cases hm with
  | made h => exact Metric.named_make? h
  | decoded h => exact (Wire.sound_of_decode h).1
  | zero h => exact Metric.named_counterReset h
  | renamed ns h => exact Metric.named_within ns (hs.metrics _ h)
  | received c headers h => exact c.named_receive headers (hs.metrics _ h)
  | change h => exact hs.deltas _ h
  | found ha hr h =>
    have hstored := (hs.sinks _ ha).innermost
    rw [hr] at hstored
    exact hstored m (Table.mem_values_iff.mpr ⟨_, h⟩)
  | listed ha hr h =>
    have hstored := (hs.sinks _ ha).innermost
    rw [hr] at hstored
    exact hstored m h
  | aggregateFound a hsources h =>
    unfold Aggregator.find? at h
    split at h
    · cases h
    · exact Aggregator.named_aggregate h
  | aggregateListed a hsources h =>
    obtain ⟨key, hkey⟩ := Table.mem_values_iff.mp h
    exact Aggregator.named_aggregate hkey

theorem named_of_givesDelta {d : Delta} (hd : GivesDelta d) : d.name ≠ "" := by
  cases hd with
  | made h =>
    obtain ⟨m, hm, rfl⟩ := Option.map_eq_some_iff.mp h
    exact Metric.named_make? hm
  | decoded h => exact (Wire.sound_of_decode h).1

theorem Named.setSink (hs : s.Named) (i : Nat) {a : Assembly} (ha : a.Named) :
    Named { s with sinks := s.sinks.set i a } := by
  refine ⟨hs.metrics, hs.deltas, fun b hb => ?_, hs.buses⟩
  rcases List.mem_or_eq_of_mem_set hb with hb | rfl
  · exact hs.sinks b hb
  · exact ha

theorem Named.setBus (hs : s.Named) (j : Nat) {bus : Bus} (hbus : bus.Named) :
    Named { s with buses := s.buses.set j bus } := by
  refine ⟨hs.metrics, hs.deltas, hs.sinks, fun b hb => ?_⟩
  rcases List.mem_or_eq_of_mem_set hb with hb | rfl
  · exact hs.buses b hb
  · exact hbus

theorem Named.settle (hs : s.Named) (i j : Nat) {after : Assembly × Bus}
    (h : after.1.Named ∧ after.2.Named) : (s.settle i j after).Named :=
  (hs.setSink i h.1).setBus j h.2

theorem Named.attach (hs : s.Named) {a : Assembly} (ha : a.Fresh) :
    Named { s with sinks := s.sinks ++ [a] } := by
  have hsinks : ∀ b ∈ s.sinks ++ [a], b.Named :=
    List.forall_mem_append.mpr ⟨hs.sinks, List.forall_mem_singleton.mpr ha.named⟩
  exact ⟨hs.metrics, hs.deltas, hsinks, hs.buses⟩

theorem Named.connect (hs : s.Named) (refusal : Option String) :
    Named { s with buses := s.buses ++ [⟨[], refusal⟩] } := by
  have hfresh : (⟨[], refusal⟩ : Bus).Named := nofun
  have hbuses : ∀ b ∈ s.buses ++ [⟨[], refusal⟩], b.Named :=
    List.forall_mem_append.mpr ⟨hs.buses, List.forall_mem_singleton.mpr hfresh⟩
  exact ⟨hs.metrics, hs.deltas, hs.sinks, hbuses⟩

theorem Named.metric (hs : s.Named) (hm : m.name ≠ "") :
    Named { s with metrics := m :: s.metrics } := by
  have hmetrics : ∀ n ∈ m :: s.metrics, n.name ≠ "" := List.forall_mem_cons.mpr ⟨hm, hs.metrics⟩
  exact ⟨hmetrics, hs.deltas, hs.sinks, hs.buses⟩

theorem Named.addDeltas (hs : s.Named) {ds : List Delta} (hds : ∀ d ∈ ds, d.name ≠ "") :
    Named { s with deltas := ds ++ s.deltas } := by
  have hdeltas : ∀ d ∈ ds ++ s.deltas, d.name ≠ "" := List.forall_mem_append.mpr ⟨hds, hs.deltas⟩
  exact ⟨hs.metrics, hdeltas, hs.sinks, hs.buses⟩

/-- Whatever operations have been used, and in whatever order, everything
that there is has a name, and so has whatever the next operation returns. -/
theorem named_of_reachable (h : Reachable s) :
    s.Named ∧ (∀ m, s.Gives m → m.name ≠ "") ∧ ∀ d, GivesDelta d → d.name ≠ "" := by
  suffices hs : s.Named from ⟨hs, fun _ => hs.gives, fun _ => named_of_givesDelta⟩
  induction h with
  | start => exact ⟨nofun, nofun, nofun, nofun⟩
  | connect _ refusal hs => exact hs.connect refusal
  | attach _ ha hs => exact hs.attach ha
  | @wrap s _ i a ha hs =>
    have htracker : (Assembly.tracker .fresh a).Named :=
      ⟨nofun, hs.sinks a (List.mem_of_getElem? ha)⟩
    exact hs.setSink i htracker
  | metric _ hm hs => exact hs.metric (hs.gives hm)
  | @delta s _ d hd hs =>
    have hadded : ∀ e ∈ [d], e.name ≠ "" := by simpa using named_of_givesDelta hd
    exact hs.addDeltas hadded
  | @derive s _ i t down ht m hm hs =>
    obtain ⟨hlast, hdown⟩ := hs.sinks _ (List.mem_of_getElem? ht)
    obtain ⟨hdelta, hlast'⟩ := Tracker.named_derive hlast (hs.metrics m hm)
    have htracker : (Assembly.tracker (t.derive m).2.1 down).Named := ⟨hlast', hdown⟩
    exact (hs.setSink i htracker).addDeltas fun d hd => hdelta d (Option.mem_toList.mp hd)
  | write _ ha hbus hw hs =>
    exact hs.settle _ _ ((hs.sinks _ (List.mem_of_getElem? ha)).accept
      (hs.buses _ (List.mem_of_getElem? hbus)) (hs.offers hw))
  | process _ ha hbus l header? hm hs =>
    exact hs.settle _ _ (l.named_process (hs.sinks _ (List.mem_of_getElem? ha))
      (hs.buses _ (List.mem_of_getElem? hbus)) header? (hs.metrics _ hm))
  | message _ ha hbus c now payload headers hs =>
    exact hs.settle _ _ (c.named_onMessage (hs.sinks _ (List.mem_of_getElem? ha))
      (hs.buses _ (List.mem_of_getElem? hbus)) now payload headers)
  | drain _ hbus hs => exact hs.setBus _ nofun

theorem named_of_reachable_behind_tracker :
    let m : Metric := ⟨"counter.hits", 3, ⟨0⟩⟩
    let broker : Assembly := .broker ⟨.make "metrics" (some "...") .empty, true⟩
    let s : World := ⟨[m], [], [.tracker .fresh broker], [.empty]⟩
    let s' := s.settle 0 0 ((Assembly.tracker .fresh broker).accept .empty (.record m)).state
    s'.Reachable ∧ (∀ b ∈ s'.buses, b.queue ≠ []) ∧ s'.Named := by
  intro m broker s s'
  have hattached : Reachable ⟨[], [], [broker], [.empty]⟩ :=
    (Reachable.start.connect none).attach (.broker _)
  have hwrapped : Reachable ⟨[], [], [.tracker .fresh broker], [.empty]⟩ :=
    hattached.wrap (i := 0) rfl
  have hm : Metric.make? "counter.hits" 3 ⟨0⟩ = some m := rfl
  have hs : s.Reachable := hwrapped.metric (.made hm)
  have hoffered : s.Offers (.record m) := List.mem_singleton_self m
  have hs' : s'.Reachable := hs.write (i := 0) (j := 0) rfl rfl hoffered
  refine ⟨hs', ?_, (named_of_reachable hs').1⟩
  decide +kernel

end World

end MetricRelay
