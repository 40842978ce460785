import MetricRelay.Aggregate
import MetricRelay.Broker
import MetricRelay.Config.Source
import MetricRelay.Consumer
import MetricRelay.Log.Setup
import MetricRelay.Statsd.Client

/-!
# The sections of a configuration

Each section is a structure with its defaults, a way to read it from any
notation and a way to write it as a tree. A part of a section that is not
given has its default; what is written is read back as the same section.
-/

namespace MetricRelay.Config

open Source

variable {ν : Type} [Source ν]

/-- Reads a part that may be missing. -/
def part {α : Type} (read : ν → Option α) (otherwise : α) : Option ν → Option α
  | none => some otherwise
  | some v => read v

/-- Reads texts under names; of two with one name the later one counts. -/
def texts? (v : ν) : Option (Table String) := do
  let entries ← entries? v
  let pairs ← entries.mapM fun (name, v) => (text? v).map fun s => (name, s)
  return Table.ofList pairs

def textsTree (t : Table String) : Tree :=
  .record (t.entries.map fun (name, s) => (name, .text s))

/-- A text that may be left out as a tree. -/
def optionalTree : Option String → Tree
  | none => .null
  | some s => .text s

/-! ## Publishing through a broker -/

/-- The settings of a broker. -/
structure ExportSettings where
  exchange : String
  nameSpace : Option String
  /-- Messages have headers. -/
  addHeaders : Bool
  /-- Headers of every message. -/
  headers : Table String

namespace ExportSettings

def default : ExportSettings := ⟨Routing.defaultExchange, none, true, .empty⟩

def read? (v : ν) : Option ExportSettings := do
  match ← parts? ["exchange", "prefix", "add_headers", "headers"] v with
  | [exchange, nameSpace, addHeaders, headers] =>
    return {
      exchange := ← part text? default.exchange exchange
      nameSpace := ← part optionalText? default.nameSpace nameSpace
      addHeaders := ← part flag? default.addHeaders addHeaders
      headers := ← part texts? default.headers headers }
  | _ => none

def tree (s : ExportSettings) : Tree :=
  .record [("exchange", .text s.exchange), ("prefix", optionalTree s.nameSpace),
    ("add_headers", .flag s.addHeaders), ("headers", textsTree s.headers)]

def routing (s : ExportSettings) : Routing :=
  .make s.exchange s.nameSpace s.headers

def broker (s : ExportSettings) : Broker :=
  ⟨s.routing, s.addHeaders⟩

end ExportSettings

/-! ## Listening -/

/-- The settings of a listener. -/
structure ListenerSettings where
  /-- The namespace of metrics that have none. -/
  defaultNameSpace : String
deriving Repr, DecidableEq

namespace ListenerSettings

def default : ListenerSettings := ⟨""⟩

def read? (v : ν) : Option ListenerSettings := do
  match ← parts? ["default_prefix"] v with
  | [nameSpace] =>
    return { defaultNameSpace := ← part text? default.defaultNameSpace nameSpace }
  | _ => none

def tree (s : ListenerSettings) : Tree :=
  .record [("default_prefix", .text s.defaultNameSpace)]

def listener (s : ListenerSettings) : Listener :=
  .make s.defaultNameSpace

end ListenerSettings

/-! ## Aggregation flows -/

/-- The settings of the producing side of a flow. -/
structure FlowSettings where
  exchange : String
  nameSpace : String
deriving Repr, DecidableEq

namespace FlowSettings

def default : FlowSettings := ⟨Routing.defaultExchange, ""⟩

def read? (v : ν) : Option FlowSettings := do
  match ← parts? ["exchange", "metric_prefix"] v with
  | [exchange, nameSpace] =>
    return {
      exchange := ← part text? default.exchange exchange
      nameSpace := ← part text? default.nameSpace nameSpace }
  | _ => none

def tree (s : FlowSettings) : Tree :=
  .record [("exchange", .text s.exchange), ("metric_prefix", .text s.nameSpace)]

def flow (s : FlowSettings) : Flow :=
  ⟨s.exchange, s.nameSpace⟩

end FlowSettings

/-! ## Aggregates -/

/-- The settings of an aggregator. -/
structure AggregateSettings where
  /-- What the names of aggregates begin with. -/
  beginning : String
  /-- The text of the key pattern. -/
  keyPattern : String
deriving Repr, DecidableEq

namespace AggregateSettings

def default : AggregateSettings := ⟨Aggregator.defaultBeginning, KeyPattern.defaultText⟩

def read? (v : ν) : Option AggregateSettings := do
  match ← parts? ["prefix", "key_pattern"] v with
  | [beginning, keyPattern] =>
    return {
      beginning := ← part text? default.beginning beginning
      keyPattern := ← part text? default.keyPattern keyPattern }
  | _ => none

def tree (s : AggregateSettings) : Tree :=
  .record [("prefix", .text s.beginning), ("key_pattern", .text s.keyPattern)]

def aggregator (s : AggregateSettings) : Except InvalidKeyPattern Aggregator :=
  (KeyPattern.parse s.keyPattern).map (⟨·, s.beginning⟩)

end AggregateSettings

/-! ## Parameters of the broker's own client -/

/-- A parameter that is handed on by name. Both parts must be given. -/
structure ClientParameter where
  name : String
  value : String
deriving Repr, DecidableEq

namespace ClientParameter

def read? (v : ν) : Option ClientParameter := do
  match ← parts? ["name", "value"] v with
  | [some name, some value] => return { name := ← text? name, value := ← text? value }
  | _ => none

def tree (p : ClientParameter) : Tree :=
  .record [("name", .text p.name), ("value", .text p.value)]

def readAll? (v : ν) : Option (List ClientParameter) := do
  (← items? v).mapM read?

end ClientParameter

/-! ## Internal measurements -/

/-- The settings of internal measurements. -/
structure HealthSettings where
  /-- The address of the statsd server; nothing is measured without. -/
  statsd : Option String
  /-- The namespace of all measurements. -/
  nameSpace : String
  /-- Tags of every measurement. -/
  defaultTags : Table String
  /-- The fraction of measurements that is sent. -/
  sampleRate : Float

namespace HealthSettings

def default : HealthSettings := ⟨none, "tally", .empty, 1⟩

def read? (v : ν) : Option HealthSettings := do
  match ← parts? ["statsd", "prefix", "default_tags", "sample_rate"] v with
  | [statsd, nameSpace, defaultTags, sampleRate] =>
    return {
      statsd := ← part optionalText? default.statsd statsd
      nameSpace := ← part text? default.nameSpace nameSpace
      defaultTags := ← part texts? default.defaultTags defaultTags
      sampleRate := ← part number? default.sampleRate sampleRate }
  | _ => none

def tree (s : HealthSettings) : Tree :=
  .record [("statsd", optionalTree s.statsd), ("prefix", .text s.nameSpace),
    ("default_tags", textsTree s.defaultTags), ("sample_rate", .number s.sampleRate)]

def client (s : HealthSettings) : Statsd.Client :=
  { nameSpace := s.nameSpace, defaultTags := s.defaultTags,
    rate := .ofFloat s.sampleRate, refusal := none }

end HealthSettings

/-! ## Logging -/

def level? (v : ν) : Option Log.Level :=
  (choice? v).bind Log.Level.named?

def format? (v : ν) : Option Log.Format :=
  (choice? v).bind Log.Format.named?

def logging? (v : ν) : Option Log.Settings := do
  let d := Log.Settings.default
  match ← parts? ["level", "format", "enable_backtraces"] v with
  | [level, format, enableBacktraces] =>
    return {
      level := ← part level? d.level level
      format := ← part format? d.format format
      enableBacktraces := ← part flag? d.enableBacktraces enableBacktraces }
  | _ => none

def loggingTree (s : Log.Settings) : Tree :=
  .record [("level", .text s.level.name), ("format", .text s.format.name),
    ("enable_backtraces", .flag s.enableBacktraces)]

/-! ## All sections -/

structure Values where
  logging : Log.Settings
  metrics : HealthSettings
  publishing : ExportSettings
  listener : ListenerSettings
  flow : FlowSettings
  aggregate : AggregateSettings
  clientParameters : List ClientParameter

namespace Values

def default : Values :=
  ⟨Log.Settings.default, .default, .default, .default, .default, .default, []⟩

def sectionNames : List String :=
  ["logging", "metrics", "export", "listener", "flow", "aggregate", "kafka_config"]

def read? (v : ν) : Option Values := do
  match ← parts? sectionNames v with
  | [logging, metrics, publishing, listener, flow, aggregate, clientParameters] =>
    return {
      logging := ← part logging? default.logging logging
      metrics := ← part HealthSettings.read? default.metrics metrics
      publishing := ← part ExportSettings.read? default.publishing publishing
      listener := ← part ListenerSettings.read? default.listener listener
      flow := ← part FlowSettings.read? default.flow flow
      aggregate := ← part AggregateSettings.read? default.aggregate aggregate
      clientParameters :=
        ← part ClientParameter.readAll? default.clientParameters clientParameters }
  | _ => none

def tree (s : Values) : Tree :=
  .record [("logging", loggingTree s.logging), ("metrics", s.metrics.tree),
    ("export", s.publishing.tree), ("listener", s.listener.tree), ("flow", s.flow.tree),
    ("aggregate", s.aggregate.tree),
    ("kafka_config", .list (s.clientParameters.map ClientParameter.tree))]

end Values

end MetricRelay.Config
