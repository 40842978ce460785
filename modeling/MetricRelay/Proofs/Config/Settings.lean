import MetricRelay.Proofs.Config.Trees

/-!
# Settings one by one

A `Setting` is one field of one section. It has a path in a tree, a kind
that says how its value is spelled, and its value in all settings. The
settings say all that there is (`ext_get`), and all are read alike: what
stands at the path is read as its kind says, and the default takes its
place where nothing stands (`Values.read?_eq_some`). What is told about a
kind is told once for all settings of the kind.
-/

namespace MetricRelay.Config

open MetricRelay.Config.Tree (Distinct)

/-! ## Kinds -/

inductive Kind where
  | text
  | optionalText
  | flag
  | number
  | level
  | format
  | texts
  | parameters

namespace Kind

def Value : Kind → Type
  | text => String
  | optionalText => Option String
  | flag => Bool
  | number => Float
  | level => Log.Level
  | format => Log.Format
  | texts => Table String
  | parameters => List ClientParameter

/-- A tree spells one of several names. -/
def SpellsName (t : Tree) (name : String) : Prop :=
  t = .text name ∨ t = .record [(name, .null)]

/-- A tree spells texts under names. -/
def SpellsTexts (t : Tree) (texts : Table String) : Prop :=
  ∃ ms, t = .record ms ∧ Distinct ms ∧ (∀ m ∈ ms, ∃ s, m.2 = .text s)
    ∧ ∀ name s, texts.get? name = some s ↔ (name, .text s) ∈ ms

/-- A tree spells a parameter: by its parts in order, or by members under
their names, and then other members do not matter. -/
def SpellsParameter (t : Tree) (p : ClientParameter) : Prop :=
  t = .list [.text p.name, .text p.value]
    ∨ ∃ ms, t = .record ms ∧ Distinct ms ∧ ("name", .text p.name) ∈ ms
      ∧ ("value", .text p.value) ∈ ms

/-- A tree is well-typed for a kind, and spells the value. -/
def Spells : (k : Kind) → Tree → k.Value → Prop
  | text, t, s => t = .text s
  | optionalText, t, o => t = .null ∧ o = none ∨ ∃ s, t = .text s ∧ o = some s
  | flag, t, b => t = .flag b
  | number, t, x => t = .number x
  | level, t, l => SpellsName t l.name
  | format, t, f => SpellsName t f.name
  | texts, t, held => SpellsTexts t held
  | parameters, t, ps => ∃ ts, t = .list ts ∧ List.Forall₂ SpellsParameter ts ps

/-- How a kind is read from a tree. -/
def read? : (k : Kind) → Tree → Option k.Value
  | text => Tree.text?
  | optionalText => Tree.optionalText?
  | flag => Tree.flag?
  | number => Tree.number?
  | level => level?
  | format => format?
  | texts => texts?
  | parameters => ClientParameter.readAll?

theorem choice?_of_spellsName {t : Tree} {name : String} (h : SpellsName t name) :
    t.choice? = some name := by
  rcases h with rfl | rfl <;> rfl

theorem texts?_record (pairs : List (String × String)) :
    texts? (Tree.record (pairs.map fun p => (p.1, .text p.2))) = some (Table.ofList pairs) := by
  have hread : (pairs.map fun p => (p.1, Tree.text p.2)).mapM
      (fun m : String × Tree => m.2.text?.map fun s => (m.1, s)) = some pairs := by
    refine mapM_eq_some_of_forall₂ ?_
    rw [List.forall₂_map_left_iff, List.forall₂_same]
    exact fun p _ => rfl
  have hbind : texts? (Tree.record (pairs.map fun p => (p.1, .text p.2)))
      = ((pairs.map fun p => (p.1, Tree.text p.2)).mapM
        fun m : String × Tree => m.2.text?.map fun s => (m.1, s)).bind
          fun pairs => some (Table.ofList pairs) := rfl
  rw [hbind, hread, Option.bind_some]

theorem exists_pairs {ms : List (String × Tree)} (h : ∀ m ∈ ms, ∃ s, m.2 = .text s) :
    ∃ pairs : List (String × String), ms = pairs.map fun p => (p.1, .text p.2) := by
  induction ms with
  | nil => exact ⟨[], rfl⟩
  | cons m ms ih =>
    obtain ⟨s, hs⟩ := h m List.mem_cons_self
    obtain ⟨pairs, rfl⟩ := ih fun m hm => h m (List.mem_cons_of_mem _ hm)
    exact ⟨(m.1, s) :: pairs, by rw [List.map_cons, ← hs]⟩

theorem texts?_of_spells {t : Tree} {texts : Table String} (h : SpellsTexts t texts) :
    texts? t = some texts := by
  obtain ⟨ms, rfl, hdistinct, htyped, hget⟩ := h
  obtain ⟨pairs, rfl⟩ := exists_pairs htyped
  rw [Distinct, List.map_map] at hdistinct
  rw [texts?_record, Option.some_inj]
  refine Table.ext_get? fun name => Option.ext fun s => ?_
  rw [get?_ofList, Tree.lastMember?_eq_some_iff hdistinct, hget]
  simp

theorem read?_parameter {t : Tree} {p : ClientParameter} (h : SpellsParameter t p) :
    ClientParameter.read? t = some p := by
  rcases h with rfl | ⟨ms, rfl, hdistinct, hname, hvalue⟩
  · rfl
  · rw [← Tree.lastMember?_eq_some_iff hdistinct] at hname hvalue
    have hparts : Source.parts? ["name", "value"] (Tree.record ms)
        = some [some (Tree.text p.name), some (Tree.text p.value)] := by
      show some [Tree.lastMember? "name" ms, Tree.lastMember? "value" ms] = _
      rw [hname, hvalue]
    rw [ClientParameter.read?, hparts]
    rfl

theorem read?_of_spells {k : Kind} {t : Tree} {x : k.Value} (h : k.Spells t x) :
    k.read? t = some x := by
  cases k with
  | text => rw [show t = _ from h]; rfl
  | optionalText => rcases h with ⟨rfl, rfl⟩ | ⟨s, rfl, rfl⟩ <;> rfl
  | flag => rw [show t = _ from h]; rfl
  | number => rw [show t = _ from h]; rfl
  | level =>
    show t.choice?.bind Log.Level.named? = _
    rw [choice?_of_spellsName h]
    cases x <;> rfl
  | format =>
    show t.choice?.bind Log.Format.named? = _
    rw [choice?_of_spellsName h]
    cases x <;> rfl
  | texts => exact texts?_of_spells h
  | parameters =>
    obtain ⟨ts, rfl, hts⟩ := h
    exact mapM_eq_some_of_forall₂ (hts.imp fun t p => read?_parameter)

end Kind

/-! ## Settings -/

/-- The settings of all sections. -/
inductive Setting where
  | level
  | format
  | enableBacktraces
  | statsd
  | healthNameSpace
  | defaultTags
  | sampleRate
  | exchange
  | nameSpace
  | addHeaders
  | headers
  | defaultNameSpace
  | flowExchange
  | flowNameSpace
  | beginning
  | keyPattern
  | clientParameters
deriving DecidableEq

namespace Setting

def kind : Setting → Kind
  | level => .level
  | format => .format
  | enableBacktraces => .flag
  | statsd => .optionalText
  | healthNameSpace => .text
  | defaultTags => .texts
  | sampleRate => .number
  | exchange => .text
  | nameSpace => .optionalText
  | addHeaders => .flag
  | headers => .texts
  | defaultNameSpace => .text
  | flowExchange => .text
  | flowNameSpace => .text
  | beginning => .text
  | keyPattern => .text
  | clientParameters => .parameters

/-- The names of the section and the field. -/
def path : Setting → List String
  | level => ["logging", "level"]
  | format => ["logging", "format"]
  | enableBacktraces => ["logging", "enable_backtraces"]
  | statsd => ["metrics", "statsd"]
  | healthNameSpace => ["metrics", "prefix"]
  | defaultTags => ["metrics", "default_tags"]
  | sampleRate => ["metrics", "sample_rate"]
  | exchange => ["export", "exchange"]
  | nameSpace => ["export", "prefix"]
  | addHeaders => ["export", "add_headers"]
  | headers => ["export", "headers"]
  | defaultNameSpace => ["listener", "default_prefix"]
  | flowExchange => ["flow", "exchange"]
  | flowNameSpace => ["flow", "metric_prefix"]
  | beginning => ["aggregate", "prefix"]
  | keyPattern => ["aggregate", "key_pattern"]
  | clientParameters => ["kafka_config"]

/-- The value of a setting. -/
def get : (f : Setting) → Values → f.kind.Value
  | level, v => v.logging.level
  | format, v => v.logging.format
  | enableBacktraces, v => v.logging.enableBacktraces
  | statsd, v => v.metrics.statsd
  | healthNameSpace, v => v.metrics.nameSpace
  | defaultTags, v => v.metrics.defaultTags
  | sampleRate, v => v.metrics.sampleRate
  | exchange, v => v.publishing.exchange
  | nameSpace, v => v.publishing.nameSpace
  | addHeaders, v => v.publishing.addHeaders
  | headers, v => v.publishing.headers
  | defaultNameSpace, v => v.listener.defaultNameSpace
  | flowExchange, v => v.flow.exchange
  | flowNameSpace, v => v.flow.nameSpace
  | beginning, v => v.aggregate.beginning
  | keyPattern, v => v.aggregate.keyPattern
  | clientParameters, v => v.clientParameters

/-- All settings with the values of a choice. -/
def assemble (g : (f : Setting) → f.kind.Value) : Values where
  logging := ⟨g level, g format, g enableBacktraces⟩
  metrics := ⟨g statsd, g healthNameSpace, g defaultTags, g sampleRate⟩
  publishing := ⟨g exchange, g nameSpace, g addHeaders, g headers⟩
  listener := ⟨g defaultNameSpace⟩
  flow := ⟨g flowExchange, g flowNameSpace⟩
  aggregate := ⟨g beginning, g keyPattern⟩
  clientParameters := g clientParameters

theorem get_assemble (g : (f : Setting) → f.kind.Value) (f : Setting) :
    f.get (assemble g) = g f := by
  cases f <;> rfl

theorem ext_get {v w : Values} (h : ∀ f : Setting, f.get v = f.get w) : v = w := by
  have hv : assemble (fun f => f.get v) = v := rfl
  have hw : assemble (fun f => f.get w) = w := rfl
  rw [← hv, ← hw, funext h]

/-! ## Reading -/

/-- What a tree says of a setting, or its default. -/
def read? (f : Setting) (t : Tree) : Option f.kind.Value :=
  part f.kind.read? (f.get .default) (t.find? f.path)

variable {ms : List (String × Tree)} {g : (f : Setting) → f.kind.Value}

/-- A section that is not there is read like one without members, and its
settings with it. -/
theorem exists_section {α : Type} (read : Tree → Option α) (otherwise : α)
    (hempty : read (.record []) = some otherwise) {name field : String}
    (h : (Tree.record ms).Leads [name, field]) :
    ∃ fs, part read otherwise (Tree.lastMember? name ms) = read (.record fs)
      ∧ ∀ (f : Setting) (field : String), f.path = [name, field] →
        f.read? (.record ms) = part f.kind.read? (f.get .default) (Tree.lastMember? field fs) := by
  obtain ⟨_, ⟨⟩, hdistinct, hleads⟩ := h
  have hfind : ∀ (f : Setting) (field : String), f.path = [name, field] →
      f.read? (.record ms) = part f.kind.read? (f.get .default)
        ((Tree.lastMember? name ms).bind (Tree.find? [field])) := by
    intro f field hpath
    rw [read?, hpath]
    rfl
  cases hlast : Tree.lastMember? name ms with
  | none =>
    refine ⟨[], hempty.symm, fun f field hpath => ?_⟩
    rw [hfind f field hpath, hlast]
    rfl
  | some u =>
    obtain ⟨fs, rfl, -, -⟩ := hleads u ((Tree.lastMember?_eq_some_iff hdistinct).mp hlast)
    refine ⟨fs, rfl, fun f field hpath => ?_⟩
    rw [hfind f field hpath, hlast]
    exact congrArg _ (Option.bind_fun_some _)

theorem part_logging (h : (Tree.record ms).Leads level.path) :
    part logging? Values.default.logging (Tree.lastMember? "logging" ms) = do
      return ⟨← level.read? (.record ms), ← format.read? (.record ms),
        ← enableBacktraces.read? (.record ms)⟩ := by
  obtain ⟨fs, hpart, hfield⟩ := exists_section logging? Values.default.logging rfl h
  rw [hpart, hfield level _ rfl, hfield format _ rfl, hfield enableBacktraces _ rfl]
  rfl

theorem part_metrics (h : (Tree.record ms).Leads statsd.path) :
    part HealthSettings.read? Values.default.metrics (Tree.lastMember? "metrics" ms) = do
      return ⟨← statsd.read? (.record ms), ← healthNameSpace.read? (.record ms),
        ← defaultTags.read? (.record ms), ← sampleRate.read? (.record ms)⟩ := by
  obtain ⟨fs, hpart, hfield⟩ := exists_section HealthSettings.read? Values.default.metrics rfl h
  rw [hpart, hfield statsd _ rfl, hfield healthNameSpace _ rfl, hfield defaultTags _ rfl,
    hfield sampleRate _ rfl]
  rfl

theorem part_publishing (h : (Tree.record ms).Leads exchange.path) :
    part ExportSettings.read? Values.default.publishing (Tree.lastMember? "export" ms) = do
      return ⟨← exchange.read? (.record ms), ← nameSpace.read? (.record ms),
        ← addHeaders.read? (.record ms), ← headers.read? (.record ms)⟩ := by
  obtain ⟨fs, hpart, hfield⟩ := exists_section ExportSettings.read? Values.default.publishing rfl h
  rw [hpart, hfield exchange _ rfl, hfield nameSpace _ rfl, hfield addHeaders _ rfl,
    hfield headers _ rfl]
  rfl

theorem part_listener (h : (Tree.record ms).Leads defaultNameSpace.path) :
    part ListenerSettings.read? Values.default.listener (Tree.lastMember? "listener" ms) = do
      return ⟨← defaultNameSpace.read? (.record ms)⟩ := by
  obtain ⟨fs, hpart, hfield⟩ := exists_section ListenerSettings.read? Values.default.listener rfl h
  rw [hpart, hfield defaultNameSpace _ rfl]
  rfl

theorem part_flow (h : (Tree.record ms).Leads flowExchange.path) :
    part FlowSettings.read? Values.default.flow (Tree.lastMember? "flow" ms) = do
      return ⟨← flowExchange.read? (.record ms), ← flowNameSpace.read? (.record ms)⟩ := by
  obtain ⟨fs, hpart, hfield⟩ := exists_section FlowSettings.read? Values.default.flow rfl h
  rw [hpart, hfield flowExchange _ rfl, hfield flowNameSpace _ rfl]
  rfl

theorem part_aggregate (h : (Tree.record ms).Leads beginning.path) :
    part AggregateSettings.read? Values.default.aggregate (Tree.lastMember? "aggregate" ms) = do
      return ⟨← beginning.read? (.record ms), ← keyPattern.read? (.record ms)⟩ := by
  obtain ⟨fs, hpart, hfield⟩ := exists_section AggregateSettings.read? Values.default.aggregate rfl h
  rw [hpart, hfield beginning _ rfl, hfield keyPattern _ rfl]
  rfl

theorem part_clientParameters (ms : List (String × Tree)) :
    part ClientParameter.readAll? Values.default.clientParameters
        (Tree.lastMember? "kafka_config" ms)
      = clientParameters.read? (.record ms) :=
  congrArg (part ClientParameter.readAll? _) (Option.bind_fun_some _).symm

/-- A tree is read setting by setting. -/
theorem read?_eq_some {t : Tree} (hleads : ∀ f : Setting, t.Leads f.path)
    (hg : ∀ f : Setting, f.read? t = some (g f)) : Values.read? t = some (assemble g) := by
  obtain ⟨ms, rfl, -, -⟩ := hleads clientParameters
  have hsections : Values.read? (Tree.record ms) = do
      return {
        logging := ← part logging? Values.default.logging (Tree.lastMember? "logging" ms)
        metrics := ← part HealthSettings.read? Values.default.metrics
          (Tree.lastMember? "metrics" ms)
        publishing := ← part ExportSettings.read? Values.default.publishing
          (Tree.lastMember? "export" ms)
        listener := ← part ListenerSettings.read? Values.default.listener
          (Tree.lastMember? "listener" ms)
        flow := ← part FlowSettings.read? Values.default.flow (Tree.lastMember? "flow" ms)
        aggregate := ← part AggregateSettings.read? Values.default.aggregate
          (Tree.lastMember? "aggregate" ms)
        clientParameters := ← part ClientParameter.readAll? Values.default.clientParameters
          (Tree.lastMember? "kafka_config" ms) } := rfl
  rw [hsections, part_logging (hleads _), part_metrics (hleads _), part_publishing (hleads _),
    part_listener (hleads _), part_flow (hleads _), part_aggregate (hleads _),
    part_clientParameters]
  simp only [hg]
  rfl

end Setting

end MetricRelay.Config
