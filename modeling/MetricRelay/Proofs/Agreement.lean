import MetricRelay.Proofs.Consuming
import MetricRelay.Proofs.Tables

/-!
# Listeners and inbound flows agree

A message reaches a listener and an inbound flow with the same payload,
but with the producer's namespace in headers of different names. Both
consumers put that namespace before the metric's name in the same way
(`agrees_take`), so that in a run of messages nothing tells them apart
but the log of the listener.
-/

namespace MetricRelay

/-- A message for consumers of either kind. -/
structure Message where
  payload : List UInt8
  /-- The producer's namespace, where it comes with the message. -/
  nameSpace? : Option String
  /-- Headers besides the one with the namespace. -/
  others : Headers
  now : Instant

namespace Message

/-- The message as it arrives with its namespace under `key`. -/
def under (m : Message) (key : String) : Arrival where
  payload := m.payload
  headers := match m.nameSpace? with
    | some nameSpace => m.others.insert key nameSpace
    | none => m.others.erase key
  now := m.now

theorem get?_under (m : Message) (key : String) :
    (m.under key).headers.get? key = m.nameSpace? := by
  unfold under
  cases m.nameSpace? with
  | none => exact Table.get?_erase_self m.others key
  | some nameSpace => exact Table.get?_insert_self m.others key nameSpace

end Message

namespace Consumer

variable {σ ε : Type}

/-- What a consumer makes of a decoded metric is a matter of the namespace
alone; the listener logs it besides. -/
theorem receive_under (m : Message) (x : Metric) :
    ((listener .plain).receive (m.under metricPrefixHeader).headers x).metric
        = (inbound.receive (m.under flowPrefixHeader).headers x).metric
      ∧ ((listener .plain).receive (m.under metricPrefixHeader).headers x).trail.measured
        = (inbound.receive (m.under flowPrefixHeader).headers x).trail.measured := by
  have hlistener : (listener .plain).receive (m.under metricPrefixHeader).headers x
      = Listener.plain.receive m.nameSpace? x := by rw [receive, Message.get?_under]
  have hinbound : inbound.receive (m.under flowPrefixHeader).headers x
      = namespaced m.nameSpace? "" x := by rw [receive, Flow.enrich, Message.get?_under]
  rw [hlistener, hinbound]
  refine ⟨rfl, ?_⟩
  show (namespaced m.nameSpace? "" x).trail.measured ++ [] = _
  rw [List.append_nil]

theorem agrees_take (k : Sink σ ε) (s : σ) (m : Message) :
    Reply.Agrees ((listener .plain).take k s (m.under metricPrefixHeader))
      (inbound.take k s (m.under flowPrefixHeader)) := by
  have hlistener : Wire.decode (m.under metricPrefixHeader).now (m.under metricPrefixHeader).payload
      = Wire.decode m.now m.payload := rfl
  have hinbound : Wire.decode (m.under flowPrefixHeader).now (m.under flowPrefixHeader).payload
      = Wire.decode m.now m.payload := rfl
  unfold take onMessage
  rw [hlistener, hinbound]
  cases Wire.decode m.now m.payload with
  | error fault => exact ⟨rfl, rfl, rfl⟩
  | ok x =>
    obtain ⟨hmetric, hmeasured⟩ := receive_under m x
    dsimp only
    rw [hmetric]
    refine ⟨rfl, rfl, ?_⟩
    show _ ++ _ = _ ++ _
    rw [hmeasured]

/-- A run of messages is answered alike by a listener without a namespace
of its own and by an inbound flow, whatever the payloads and whatever the
local sink replies: message by message the answers, the states of the sink
and what is measured are the same, and so is what the sink is asked. -/
theorem consumers_agree (k : Sink σ ε) (s : σ) (ms : List Message) :
    let listened := ms.map (·.under metricPrefixHeader)
    let flowed := ms.map (·.under flowPrefixHeader)
    let rs := Reply.inTurn ((listener .plain).take k) s listened
    let rs' := Reply.inTurn (inbound.take k) s flowed
    List.Forall₂ Reply.Agrees rs rs'
      ∧ Reply.stateAfter ((listener .plain).take k.noting) (s, []) listened
        = Reply.stateAfter (inbound.take k.noting) (s, []) flowed
      ∧ (Reply.measured rs).map Health.line = (Reply.measured rs').map Health.line := by
  intro listened flowed rs rs'
  have hreplies : List.Forall₂ Reply.Agrees rs rs' := Reply.agrees_inTurn (agrees_take k) s ms
  refine ⟨hreplies, Reply.stateAfter_of_agrees (agrees_take k.noting) (s, []) ms, ?_⟩
  rw [Reply.measured_of_agrees hreplies]

end Consumer

end MetricRelay
