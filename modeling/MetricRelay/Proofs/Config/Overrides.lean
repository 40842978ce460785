import MetricRelay.Config.Basic

/-!
# Overrides one after the other

What overrides do to a configuration is decided by the overrides alone:
which of them are in effect is a `Change`, read off before any setting is
looked at, and the call is that change applied together with the failure,
if there is one (`override_eq`). Changes compose, a later one taking
precedence field by field (`apply_followedBy`); applying twice, exchanging
and merging overrides are matters of how changes compose.
-/

namespace MetricRelay

open Config

namespace Overrides

/-! ## Servers -/

/-- The parameter is one with the servers. -/
def namesServers (p : ClientParameter) : Bool := p.name == serverParameter

variable {servers later : String} {ps : List ClientParameter}

theorem withServers_withServers (servers later : String) (ps : List ClientParameter) :
    withServers later (withServers servers ps) = withServers later ps := by
  induction ps with
  | nil => exact if_pos rfl
  | cons p ps ih =>
    by_cases hp : p.name = serverParameter
    · rw [withServers, if_pos hp, withServers, if_pos hp, withServers, if_pos hp]
    · rw [withServers, if_neg hp, withServers, if_neg hp, withServers, if_neg hp, ih]

theorem getElem?_withServers {i : Nat} (hi : i ≠ ps.findIdx namesServers) :
    (withServers servers ps)[i]? = ps[i]? := by
  induction ps generalizing i with
  | nil =>
    rw [List.findIdx_nil] at hi
    obtain ⟨i, rfl⟩ := Nat.exists_eq_succ_of_ne_zero hi
    rfl
  | cons p ps ih =>
    rw [List.findIdx_cons] at hi
    by_cases hp : p.name = serverParameter
    · have hnames : namesServers p = true := beq_iff_eq.mpr hp
      rw [hnames, cond_true] at hi
      obtain ⟨i, rfl⟩ := Nat.exists_eq_succ_of_ne_zero hi
      rw [withServers, if_pos hp]
      rfl
    · have hnames : namesServers p = false := beq_eq_false_iff_ne.mpr hp
      rw [hnames, cond_false] at hi
      rw [withServers, if_neg hp]
      cases i with
      | zero => rfl
      | succ i =>
        rw [List.getElem?_cons_succ, List.getElem?_cons_succ]
        exact ih fun h => hi (congrArg _ h)

end Overrides

/-! ## Changes -/

namespace Config

/-- What overrides change, once they are read; `none` changes nothing. -/
structure Change where
  nameSpace : Option String := none
  exchange : Option String := none
  addHeaders : Option Bool := none
  listenerNameSpace : Option String := none
  serverList : Option String := none
  statsd : Option String := none
  level : Option Log.Level := none

namespace Change

def apply (ch : Change) (v : Values) : Values :=
  { v with
    publishing :=
      { v.publishing with
        nameSpace := ch.nameSpace.or v.publishing.nameSpace
        exchange := ch.exchange.getD v.publishing.exchange
        addHeaders := ch.addHeaders.getD v.publishing.addHeaders }
    listener := ⟨ch.listenerNameSpace.getD v.listener.defaultNameSpace⟩
    clientParameters := ch.serverList.elim v.clientParameters
      fun servers => Overrides.withServers servers v.clientParameters
    metrics := { v.metrics with statsd := ch.statsd.or v.metrics.statsd }
    logging := { v.logging with level := ch.level.getD v.logging.level } }

/-- The change and then a later one, which takes precedence. -/
def followedBy (ch later : Change) : Change where
  nameSpace := later.nameSpace.or ch.nameSpace
  exchange := later.exchange.or ch.exchange
  addHeaders := later.addHeaders.or ch.addHeaders
  listenerNameSpace := later.listenerNameSpace.or ch.listenerNameSpace
  serverList := later.serverList.or ch.serverList
  statsd := later.statsd.or ch.statsd
  level := later.level.or ch.level

theorem apply_followedBy (ch later : Change) (v : Values) :
    (ch.followedBy later).apply v = later.apply (ch.apply v) := by
  have hservers : (later.serverList.or ch.serverList).elim v.clientParameters
        (fun servers => Overrides.withServers servers v.clientParameters)
      = later.serverList.elim (ch.apply v).clientParameters
        fun servers => Overrides.withServers servers (ch.apply v).clientParameters := by
    dsimp only [apply]
    cases later.serverList with
    | none => rfl
    | some servers' =>
      cases ch.serverList with
      | none => rfl
      | some servers => exact (Overrides.withServers_withServers servers servers' _).symm
  rw [apply, followedBy]
  dsimp only
  rw [hservers]
  simp only [apply, Option.or_assoc, Option.getD_or]

theorem followedBy_self (ch : Change) : ch.followedBy ch = ch := by
  simp only [followedBy, Option.or_self]

end Change

end Config

namespace Overrides

/-! ## What overrides are read as -/

/-- The text for the headers, if there is one, is a truth value. -/
def readsHeaders (o : Overrides) : Bool := o.addHeaders.all fun s => (flag? s).isSome

/-- The text for the log level, if there is one, is a level. -/
def readsLevel (o : Overrides) : Bool := o.logLevel.all fun s => (Log.Level.parse? s).isSome

/-- What is in effect of the overrides: a level that is refused is left
out, and all behind a refused text for the headers is. -/
def change (o : Overrides) : Change :=
  if o.readsHeaders then
    { nameSpace := o.nameSpace
      exchange := o.exchange
      addHeaders := o.addHeaders.bind flag?
      listenerNameSpace := o.listenerNameSpace
      serverList := o.serverList
      statsd := o.statsd
      level := o.logLevel.bind Log.Level.parse? }
  else { nameSpace := o.nameSpace, exchange := o.exchange }

/-- The failure of the first text that is refused. -/
def refusal? (o : Overrides) : Option ConfigError :=
  if o.readsHeaders then
    if o.readsLevel then .none else some ⟨.invalidValue, .override "log_level", some .level⟩
  else some ⟨.invalidValue, .override "add_headers", .none⟩

theorem applyHeaders_eq (o : Overrides) (v : Values) :
    o.applyHeaders v = if o.readsHeaders then
        .ok { v with publishing :=
          { v.publishing with
            addHeaders := (o.addHeaders.bind flag?).getD v.publishing.addHeaders } }
      else .error ⟨.invalidValue, .override "add_headers", .none⟩ := by
  unfold applyHeaders readsHeaders
  cases o.addHeaders with
  | none => rfl
  | some s =>
    dsimp only
    rw [Option.bind_some, Option.all_some]
    cases flag? s <;> rfl

theorem applyLevel_eq (o : Overrides) (v : Values) :
    o.applyLevel v = if o.readsLevel then
        .ok { v with logging :=
          { v.logging with level := (o.logLevel.bind Log.Level.parse?).getD v.logging.level } }
      else .error ⟨.invalidValue, .override "log_level", some .level⟩ := by
  unfold applyLevel readsLevel
  cases o.logLevel with
  | none => rfl
  | some s =>
    dsimp only
    rw [Option.bind_some, Option.all_some]
    cases Log.Level.parse? s <;> rfl

theorem not_all_isSome_iff {α β : Type} {a : Option α} {f : α → Option β} :
    ¬ a.all (fun x => (f x).isSome) ↔ ∃ x, a = some x ∧ f x = .none := by
  cases a with
  | none => simp
  | some x => simp

theorem bind_parse?_of_not_readsLevel {o : Overrides} (h : ¬ o.readsLevel) :
    o.logLevel.bind Log.Level.parse? = .none := by
  obtain ⟨s, hs, hrefused⟩ := not_all_isSome_iff.mp h
  rw [hs]
  exact hrefused

theorem applyServers_eq (o : Overrides) (v : Values) :
    o.applyServers v = { v with
      listener := ⟨o.listenerNameSpace.getD v.listener.defaultNameSpace⟩
      clientParameters := o.serverList.elim v.clientParameters
        fun servers => withServers servers v.clientParameters
      metrics := { v.metrics with statsd := o.statsd.or v.metrics.statsd } } := by
  unfold applyServers
  cases o.serverList <;> rfl

end Overrides

/-- The whole effect of overrides, on any configuration. -/
theorem Config.override_eq (c : Config) (o : Overrides) :
    c.override o = (o.refusal?, { c with values := o.change.apply c.values }) := by
  dsimp only [override]
  rw [Overrides.applyHeaders_eq, Overrides.refusal?, Overrides.change]
  by_cases hheaders : o.readsHeaders
  · rw [if_pos hheaders, if_pos hheaders, if_pos hheaders]
    dsimp only
    rw [Overrides.applyLevel_eq, Overrides.applyServers_eq]
    by_cases hlevel : o.readsLevel
    · rw [if_pos hlevel, if_pos hlevel]
      rfl
    · rw [if_neg hlevel, if_neg hlevel, Overrides.bind_parse?_of_not_readsLevel hlevel]
      rfl
  · rw [if_neg hheaders, if_neg hheaders, if_neg hheaders]
    rfl

namespace Overrides

/-! ## Two sets of overrides -/

/-- Both sets in one, with the later override where both have one. -/
def followedBy (o later : Overrides) : Overrides where
  nameSpace := later.nameSpace.or o.nameSpace
  exchange := later.exchange.or o.exchange
  addHeaders := later.addHeaders.or o.addHeaders
  listenerNameSpace := later.listenerNameSpace.or o.listenerNameSpace
  serverList := later.serverList.or o.serverList
  statsd := later.statsd.or o.statsd
  logLevel := later.logLevel.or o.logLevel

/-- No field is overridden by both sets. -/
structure Disjoint (o o' : Overrides) : Prop where
  nameSpace : o.nameSpace = .none ∨ o'.nameSpace = .none
  exchange : o.exchange = .none ∨ o'.exchange = .none
  addHeaders : o.addHeaders = .none ∨ o'.addHeaders = .none
  listenerNameSpace : o.listenerNameSpace = .none ∨ o'.listenerNameSpace = .none
  serverList : o.serverList = .none ∨ o'.serverList = .none
  statsd : o.statsd = .none ∨ o'.statsd = .none
  logLevel : o.logLevel = .none ∨ o'.logLevel = .none

variable {o o' : Overrides} {α β : Type} {f : α → Option β} {a b : Option α}

theorem all_or {p : α → Bool} (ha : a.all p) (hb : b.all p) : (a.or b).all p := by
  cases a with
  | none => exact hb
  | some x => exact ha

theorem bind_or (ha : a.all fun x => (f x).isSome) : (a.or b).bind f = (a.bind f).or (b.bind f) := by
  cases a with
  | none => rfl
  | some x =>
    obtain ⟨y, hy⟩ := Option.isSome_iff_exists.mp ha
    rw [Option.some_or, Option.bind_some, hy, Option.some_or]

theorem or_comm_of_none (h : a = .none ∨ b = .none) : a.or b = b.or a := by
  rcases h with rfl | rfl
  · rw [Option.none_or, Option.or_none]
  · rw [Option.none_or, Option.or_none]

theorem bind_none_of_none (h : a = .none ∨ b = .none) :
    a.bind f = .none ∨ b.bind f = .none := by
  rcases h with rfl | rfl
  · exact Or.inl rfl
  · exact Or.inr rfl

theorem refusal?_eq_none_iff : o.refusal? = .none ↔ o.readsHeaders ∧ o.readsLevel := by
  unfold refusal?
  cases o.readsHeaders with
  | false => simp
  | true => cases o.readsLevel <;> simp

/-- Sets that are not refused are read together as they are read apart. -/
theorem change_followedBy (h : o.refusal? = .none) (h' : o'.refusal? = .none) :
    (o.followedBy o').refusal? = .none
      ∧ (o.followedBy o').change = o.change.followedBy o'.change := by
  obtain ⟨hheaders, hlevel⟩ := refusal?_eq_none_iff.mp h
  obtain ⟨hheaders', hlevel'⟩ := refusal?_eq_none_iff.mp h'
  have hboth : (o.followedBy o').readsHeaders := all_or hheaders' hheaders
  refine ⟨refusal?_eq_none_iff.mpr ⟨hboth, all_or hlevel' hlevel⟩, ?_⟩
  rw [change, change, change, if_pos hboth, if_pos hheaders, if_pos hheaders']
  simp only [followedBy, Change.followedBy, bind_or hheaders', bind_or hlevel']

/-- Changes from disjoint sets compose alike in either order, also where
only part of a set is in effect. -/
theorem Disjoint.change_comm (h : o.Disjoint o') :
    o.change.followedBy o'.change = o'.change.followedBy o.change := by
  have hheaders := bind_none_of_none (f := flag?) h.addHeaders
  have hlevel := bind_none_of_none (f := Log.Level.parse?) h.logLevel
  unfold change
  split <;> split <;>
    simp only [Change.followedBy, Option.none_or, Option.or_none, or_comm_of_none h.nameSpace,
      or_comm_of_none h.exchange, or_comm_of_none h.listenerNameSpace,
      or_comm_of_none h.serverList, or_comm_of_none h.statsd, or_comm_of_none hheaders,
      or_comm_of_none hlevel]

/-! ## What overrides leave alone -/

/-- The second configuration is the first but for what is overridden; of
the parameters, only the first with the servers may differ, or be added
at the end. -/
structure Keeps (o : Overrides) (c c' : Config) : Prop where
  path : c'.path = c.path
  nameSpace : o.nameSpace = .none → c'.values.publishing.nameSpace = c.values.publishing.nameSpace
  exchange : o.exchange = .none → c'.values.publishing.exchange = c.values.publishing.exchange
  addHeaders :
    o.addHeaders = .none → c'.values.publishing.addHeaders = c.values.publishing.addHeaders
  headers : c'.values.publishing.headers = c.values.publishing.headers
  listener : o.listenerNameSpace = .none → c'.values.listener = c.values.listener
  flow : c'.values.flow = c.values.flow
  aggregate : c'.values.aggregate = c.values.aggregate
  parameters : o.serverList = .none → c'.values.clientParameters = c.values.clientParameters
  otherParameters : ∀ i, i ≠ c.values.clientParameters.findIdx namesServers →
    c'.values.clientParameters[i]? = c.values.clientParameters[i]?
  statsd : o.statsd = .none → c'.values.metrics.statsd = c.values.metrics.statsd
  metrics : c'.values.metrics = { c.values.metrics with statsd := c'.values.metrics.statsd }
  level : o.logLevel = .none → c'.values.logging.level = c.values.logging.level
  logging : c'.values.logging = { c.values.logging with level := c'.values.logging.level }

theorem change_of_none (o : Overrides) :
    o.change.nameSpace = o.nameSpace ∧ o.change.exchange = o.exchange
      ∧ (o.addHeaders = .none → o.change.addHeaders = .none)
      ∧ (o.listenerNameSpace = .none → o.change.listenerNameSpace = .none)
      ∧ (o.serverList = .none → o.change.serverList = .none)
      ∧ (o.statsd = .none → o.change.statsd = .none)
      ∧ (o.logLevel = .none → o.change.level = .none) := by
  unfold change
  split
  · refine ⟨rfl, rfl, ?_, id, id, id, ?_⟩
    · intro h
      rw [h]
      rfl
    · intro h
      rw [h]
      rfl
  · exact ⟨rfl, rfl, fun _ => rfl, fun _ => rfl, fun _ => rfl, fun _ => rfl, fun _ => rfl⟩

theorem keeps_override (c : Config) (o : Overrides) : o.Keeps c (c.override o).2 := by
  obtain ⟨hnameSpace, hexchange, haddHeaders, hlistener, hservers, hstatsd, hlevel⟩ :=
    change_of_none o
  rw [Config.override_eq]
  constructor
  -- the fields left to the end are of parts that no change touches
  case nameSpace =>
    intro h
    dsimp only [Change.apply]
    rw [hnameSpace, h, Option.none_or]
  case exchange =>
    intro h
    dsimp only [Change.apply]
    rw [hexchange, h, Option.getD_none]
  case addHeaders =>
    intro h
    dsimp only [Change.apply]
    rw [haddHeaders h, Option.getD_none]
  case listener =>
    intro h
    dsimp only [Change.apply]
    rw [hlistener h, Option.getD_none]
  case parameters =>
    intro h
    dsimp only [Change.apply]
    rw [hservers h, Option.elim_none]
  case otherParameters =>
    intro i hi
    dsimp only [Change.apply]
    cases o.change.serverList with
    | none => rfl
    | some servers => exact getElem?_withServers hi
  case statsd =>
    intro h
    dsimp only [Change.apply]
    rw [hstatsd h, Option.none_or]
  case level =>
    intro h
    dsimp only [Change.apply]
    rw [hlevel h, Option.getD_none]
  all_goals rfl

end Overrides

/-- Overrides in two sets, one after the other, are those of both sets in
one where neither is refused. Overriding twice with one set is overriding
once, and sets without a common field may change places, whether they are
refused or not. What is not overridden stays. -/
theorem Config.overrides_compose (c : Config) (o o' : Overrides) :
    ((c.override o).1 = none → ((c.override o).2.override o').1 = none →
        c.override (o.followedBy o') = (none, ((c.override o).2.override o').2))
      ∧ (c.override o).2.override o = c.override o
      ∧ (o.Disjoint o' →
          ((c.override o).2.override o').2 = ((c.override o').2.override o).2
            ∧ ((c.override o).2.override o').1 = (c.override o').1
            ∧ ((c.override o').2.override o).1 = (c.override o).1)
      ∧ o.Keeps c (c.override o).2 := by
  refine ⟨?_, ?_, ?_, o.keeps_override c⟩
  · intro h h'
    rw [override_eq] at h h'
    obtain ⟨hrefusal, hchange⟩ := Overrides.change_followedBy h h'
    rw [override_eq, override_eq, override_eq, hrefusal, hchange, Change.apply_followedBy]
  · rw [override_eq, override_eq]
    dsimp only
    rw [← Change.apply_followedBy, Change.followedBy_self]
  · intro h
    simp only [override_eq, ← Change.apply_followedBy, h.change_comm, and_self]

/-- Both sets name the servers, which are a parameter twice. -/
theorem Config.overrides_compose_of_servers :
    let c : Config := { Config.default with values := { Values.default with
      clientParameters := [⟨"acks", "all"⟩, ⟨"bootstrap.servers", "a"⟩, ⟨"bootstrap.servers", "b"⟩] } }
    let o : Overrides := { Overrides.none with serverList := some "c", logLevel := some "WARNING" }
    let o' : Overrides := { Overrides.none with serverList := some "d", addHeaders := some "0" }
    (c.override (o.followedBy o')).1 = none
      ∧ (c.override (o.followedBy o')).2 = ((c.override o).2.override o').2
      ∧ ((c.override o).2.override o').2.values.clientParameters
        = [⟨"acks", "all"⟩, ⟨"bootstrap.servers", "d"⟩, ⟨"bootstrap.servers", "b"⟩] := by
  intro c o o'
  have hboth := (overrides_compose c o o').1 (by decide) (by decide)
  exact ⟨congrArg Prod.fst hboth, congrArg Prod.snd hboth, by decide⟩

end MetricRelay
