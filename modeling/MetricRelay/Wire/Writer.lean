import MetricRelay.Metric
import MetricRelay.Text.Quoted
import MetricRelay.Text.Utf8

/-!
# Writing payloads

A metric is written as an object with its name, value and timestamp in
this order and no blanks. `render` writes any metric, a value that is no
finite number as `null`; `encode` refuses those, because no reader takes
them back.
-/

namespace MetricRelay.Wire

/-- A number, `null` where there is no finite one. -/
def numberText (x : Float) : List Char :=
  if x.isFinite then Number.Layout.wire.characters x else ['n', 'u', 'l', 'l']

/-- The characters of a payload. -/
def characters (m : Metric) : List Char :=
  '\x7b' :: Text.quoted "name" ++ ':' :: Text.quoted m.name
    ++ ',' :: Text.quoted "value" ++ ':' :: numberText m.value
    ++ ',' :: Text.quoted "timestamp" ++ ':' :: Number.signedDigits m.observed.millis
    ++ ['\x7d']

/-- The payload of a metric, readable or not. -/
def render (m : Metric) : List UInt8 :=
  (characters m).flatMap Utf8.encodeChar

/-- A metric whose value is no finite number. -/
structure NonFinite where
  name : String
deriving Repr, DecidableEq

namespace NonFinite

def message (e : NonFinite) : String :=
  "metric " ++ e.name ++ " has a non-finite value"

end NonFinite

/-- The payload of a metric with a finite value. -/
def encode (m : Metric) : Except NonFinite (List UInt8) :=
  if m.value.isFinite then .ok (render m) else .error ⟨m.name⟩

end MetricRelay.Wire
