import MetricRelay.Proofs.Config.Overlays
import MetricRelay.Yaml.Writer

/-!
# Configurations that are saved and loaded again

The tree of a configuration gives every setting, spelled as its kind is read
(`spells_tree`), so loading it leaves nothing to the defaults. What keeps it
from being refused is that a configuration always has a key pattern
(`keyed_of_reachable`). In between the tree is written as a document and
read back; that this gives the same tree, as long as its numbers are
finite, is what is asked of the reader (`Reproduces`).
-/

namespace MetricRelay

namespace Config

open MetricRelay.Config.Tree (Distinct)

/-! ## Documents -/

/-- The numbers of a tree are finite, as the numbers of plain data are. -/
inductive Tree.FiniteNumbers : Tree → Prop where
  | null : FiniteNumbers .null
  | flag (b : Bool) : FiniteNumbers (.flag b)
  | number {x : Float} (h : x.isFinite) : FiniteNumbers (.number x)
  | text (s : String) : FiniteNumbers (.text s)
  | list {ts : List Tree} (h : ∀ t ∈ ts, FiniteNumbers t) : FiniteNumbers (.list ts)
  | record {ms : List (String × Tree)} (h : ∀ m ∈ ms, FiniteNumbers m.2) :
    FiniteNumbers (.record ms)

/-- A reader of documents reproduces a tree: it reads what is written of it
as the tree, if plain data can hold its numbers. -/
def Reproduces (reparse : String → Option Tree) (t : Tree) : Prop :=
  t.FiniteNumbers → reparse (Yaml.write t) = some t

/-! ## What is written of a kind -/

namespace Kind

/-- A value of a kind as a tree. -/
def tree : (k : Kind) → k.Value → Tree
  | text => .text
  | optionalText => optionalTree
  | flag => .flag
  | number => .number
  | level => fun l => .text l.name
  | format => fun f => .text f.name
  | texts => textsTree
  | parameters => fun ps => .list (ps.map ClientParameter.tree)

theorem spells_textsTree (texts : Table String) : SpellsTexts (textsTree texts) texts := by
  refine ⟨_, rfl, ?_, ?_, fun name s => ?_⟩
  · rw [Distinct, List.map_map]
    exact texts.nodup_names
  · intro m hm
    obtain ⟨e, -, rfl⟩ := List.mem_map.mp hm
    exact ⟨e.2, rfl⟩
  · rw [Table.get?_eq_some_iff]
    simp

theorem spells_parameterTree (p : ClientParameter) : SpellsParameter p.tree p :=
  .inr ⟨_, rfl, by simp [Distinct], List.mem_cons_self, by simp⟩

theorem spells_parameterTrees (ps : List ClientParameter) :
    List.Forall₂ SpellsParameter (ps.map ClientParameter.tree) ps := by
  rw [List.forall₂_map_left_iff, List.forall₂_same]
  exact fun p _ => spells_parameterTree p

theorem spells_tree (k : Kind) (x : k.Value) : k.Spells (k.tree x) x := by
  cases k with
  | text => rfl
  | optionalText =>
    cases x with
    | none => exact .inl ⟨rfl, rfl⟩
    | some s => exact .inr ⟨s, rfl, rfl⟩
  | flag => rfl
  | number => rfl
  | level => exact .inl rfl
  | format => exact .inl rfl
  | texts => exact spells_textsTree x
  | parameters => exact ⟨_, rfl, spells_parameterTrees x⟩

end Kind

/-! ## What is written of all settings -/

namespace Values

theorem leads_tree (v : Values) (f : Setting) : v.tree.Leads f.path := by
  cases f <;> simp [Setting.path, Tree.Leads, Distinct, tree, loggingTree, HealthSettings.tree,
    ExportSettings.tree, ListenerSettings.tree, FlowSettings.tree, AggregateSettings.tree]

theorem find?_tree (v : Values) (f : Setting) :
    v.tree.find? f.path = some (f.kind.tree (f.get v)) := by
  cases f <;> rfl

theorem gives_tree (v : Values) (f : Setting) : Gives v.tree f (f.get v) :=
  ⟨_, (Tree.find?_eq_some_iff (v.leads_tree f)).mp (v.find?_tree f), f.kind.spells_tree _⟩

end Values

theorem Keyed.partial_tree {c : Config} (h : c.Keyed) : Partial c.tree := by
  have hfind : ∀ f : Setting, c.tree.find? f.path = some (f.kind.tree (f.get c.values)) :=
    c.values.find?_tree
  refine .of_find? c.values.leads_tree (fun f v hv => ?_) (fun s hs => ?_)
  · rw [hfind] at hv
    cases hv
    exact ⟨_, f.kind.spells_tree _⟩
  · rw [hfind] at hs
    cases hs
    exact h

/-- The tree of a configuration with a key pattern is loaded as its
settings. -/
theorem Keyed.ofTree_tree {c : Config} (h : c.Keyed) :
    Config.ofTree c.tree = .ok ⟨"", c.values⟩ := by
  obtain ⟨⟨path, values⟩, hloaded, hpath, hgiven, -⟩ := h.partial_tree.ofTree_eq_ok
  have hvalues : values = c.values :=
    Setting.ext_get fun f => hgiven f _ (c.values.gives_tree f)
  rw [hloaded, ← hvalues, show path = "" from hpath]

/-! ## What is written has finite numbers -/

namespace Tree.FiniteNumbers

theorem record_nil : (Tree.record []).FiniteNumbers := .record nofun

theorem record_cons {m : String × Tree} {ms : List (String × Tree)} (hm : m.2.FiniteNumbers)
    (hms : (Tree.record ms).FiniteNumbers) : (Tree.record (m :: ms)).FiniteNumbers := by
  cases hms with
  | record hms => exact .record (List.forall_mem_cons.mpr ⟨hm, hms⟩)

end Tree.FiniteNumbers

theorem finiteNumbers_textsTree (texts : Table String) : (textsTree texts).FiniteNumbers := by
  refine .record fun m hm => ?_
  obtain ⟨e, -, rfl⟩ := List.mem_map.mp hm
  exact .text e.2

theorem finiteNumbers_parameterTrees (ps : List ClientParameter) :
    (Tree.list (ps.map ClientParameter.tree)).FiniteNumbers := by
  refine .list fun t ht => ?_
  obtain ⟨p, -, rfl⟩ := List.mem_map.mp ht
  exact .record_cons (.text p.name) (.record_cons (.text p.value) .record_nil)

theorem Kind.finiteNumbers_tree {k : Kind} (h : k ≠ .number) (x : k.Value) :
    (k.tree x).FiniteNumbers := by
  cases k with
  | text => exact .text x
  | optionalText =>
    cases x with
    | none => exact .null
    | some s => exact .text s
  | flag => exact .flag x
  | number => exact absurd rfl h
  | level => exact .text _
  | format => exact .text _
  | texts => exact finiteNumbers_textsTree x
  | parameters => exact finiteNumbers_parameterTrees x

theorem Setting.eq_sampleRate {f : Setting} (h : f.kind = .number) : f = .sampleRate := by
  cases f with
  | sampleRate => rfl
  | _ => cases h

/-- The sample rate is the only number of all settings. -/
theorem Values.finiteNumbers_tree {v : Values} (h : v.metrics.sampleRate.isFinite) :
    v.tree.FiniteNumbers := by
  have hfield (f : Setting) : (f.kind.tree (f.get v)).FiniteNumbers := by
    by_cases hf : f.kind = .number
    · cases Setting.eq_sampleRate hf
      exact .number h
    · exact Kind.finiteNumbers_tree hf (f.get v)
  have hlogging : (loggingTree v.logging).FiniteNumbers :=
    .record_cons (hfield .level) (.record_cons (hfield .format)
      (.record_cons (hfield .enableBacktraces) .record_nil))
  have hmetrics : v.metrics.tree.FiniteNumbers :=
    .record_cons (hfield .statsd) (.record_cons (hfield .healthNameSpace)
      (.record_cons (hfield .defaultTags) (.record_cons (hfield .sampleRate) .record_nil)))
  have hpublishing : v.publishing.tree.FiniteNumbers :=
    .record_cons (hfield .exchange) (.record_cons (hfield .nameSpace)
      (.record_cons (hfield .addHeaders) (.record_cons (hfield .headers) .record_nil)))
  have hlistener : v.listener.tree.FiniteNumbers :=
    .record_cons (hfield .defaultNameSpace) .record_nil
  have hflow : v.flow.tree.FiniteNumbers :=
    .record_cons (hfield .flowExchange) (.record_cons (hfield .flowNameSpace) .record_nil)
  have haggregate : v.aggregate.tree.FiniteNumbers :=
    .record_cons (hfield .beginning) (.record_cons (hfield .keyPattern) .record_nil)
  exact .record_cons hlogging (.record_cons hmetrics (.record_cons hpublishing
    (.record_cons hlistener (.record_cons hflow (.record_cons haggregate
      (.record_cons (hfield .clientParameters) .record_nil))))))

/-! ## Saving and loading -/

/-- Whatever was loaded and overridden, the configuration that is written as
a document is loaded again from the tree that the document is read as, and
all its settings are the same. -/
theorem reloaded_of_reachable {c : Config} (hc : Reachable c)
    (hrate : c.values.metrics.sampleRate.isFinite) {reparse : String → Option Tree}
    (hreparse : Reproduces reparse c.tree) :
    ∃ t c', reparse (Yaml.write c.tree) = some t ∧ Config.ofTree t = .ok c'
      ∧ c'.values = c.values :=
  ⟨c.tree, ⟨"", c.values⟩, hreparse (Values.finiteNumbers_tree hrate),
    (keyed_of_reachable hc).ofTree_tree, rfl⟩

/-- Overridden with a prefix that would be read as nothing if it were
written plain, and with servers. -/
theorem reloaded_of_reachable_overridden :
    let o : Overrides :=
      { Overrides.none with nameSpace := some "null", serverList := some "a:9092" }
    let c := (Config.default.override o).2
    let reparse (text : String) := if text = Yaml.write c.tree then some c.tree else none
    Reachable c ∧ c.values.metrics.sampleRate.isFinite ∧ Reproduces reparse c.tree
      ∧ ∃ t c', reparse (Yaml.write c.tree) = some t ∧ Config.ofTree t = .ok c'
        ∧ c'.values = c.values ∧ c'.values.publishing.nameSpace = some "null"
        ∧ c'.values.clientParameters = [⟨"bootstrap.servers", "a:9092"⟩] := by
  intro o c reparse
  have hc : Reachable c := .override .default o
  have hrate : c.values.metrics.sampleRate.isFinite := by decide
  have hreparse : Reproduces reparse c.tree := fun _ => if_pos rfl
  obtain ⟨t, c', ht, hc', hvalues⟩ := reloaded_of_reachable hc hrate hreparse
  refine ⟨hc, hrate, hreparse, t, c', ht, hc', hvalues, ?_, ?_⟩
  · rw [hvalues]
    rfl
  · rw [hvalues]
    rfl

end Config

end MetricRelay
