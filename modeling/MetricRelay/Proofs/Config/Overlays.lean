import MetricRelay.Proofs.Config.Aggregates
import MetricRelay.Proofs.Config.Settings

/-!
# Settings over defaults

A tree need not give all settings: each one that it gives is taken over, and
each other one has its default. What a tree gives of a setting is what
stands at the path of the setting and nowhere else, so settings do not get
in each other's way. The order of members, members of unknown names and
the other settings are changes that spare the path (`Tree.Spares`).
-/

namespace MetricRelay

namespace Config

open MetricRelay.Config.Tree (Distinct)

/-- A tree gives a setting a value. -/
def Gives (t : Tree) (f : Setting) (x : f.kind.Value) : Prop :=
  ∃ v, t.At f.path v ∧ f.kind.Spells v x

/-- A tree gives part of the settings: it is a record, and so is every
section that it has, what stands where a setting is looked for is
well-typed, and a key pattern is one. -/
structure Partial (t : Tree) : Prop where
  leads : ∀ f : Setting, t.Leads f.path
  typed : ∀ (f : Setting) (v : Tree), t.At f.path v → ∃ x, f.kind.Spells v x
  keyed : ∀ s, Gives t .keyPattern s → ∃ p, KeyPattern.parse s = .ok p

namespace Partial

variable {t t' : Tree} {f : Setting}

theorem of_find? (hleads : ∀ f : Setting, t.Leads f.path)
    (htyped : ∀ (f : Setting) (v : Tree), t.find? f.path = some v → ∃ x, f.kind.Spells v x)
    (hkeyed : ∀ s, t.find? (Setting.path .keyPattern) = some (.text s) →
      ∃ p, KeyPattern.parse s = .ok p) : Partial t where
  leads := hleads
  typed f v hv := htyped f v ((Tree.find?_eq_some_iff (hleads f)).mpr hv)
  keyed s := by
    rintro ⟨_, hs, rfl⟩
    exact hkeyed s ((Tree.find?_eq_some_iff (hleads .keyPattern)).mpr hs)

theorem read?_of_gives (ht : Partial t) {x : f.kind.Value} (h : Gives t f x) :
    f.read? t = some x := by
  obtain ⟨v, hat, hspells⟩ := h
  rw [Setting.read?, (Tree.find?_eq_some_iff (ht.leads f)).mpr hat]
  exact Kind.read?_of_spells hspells

theorem read?_of_not_gives (ht : Partial t) (h : ∀ x, ¬ Gives t f x) :
    f.read? t = some (f.get .default) := by
  have hnone : t.find? f.path = none := by
    rw [Option.eq_none_iff_forall_ne_some]
    intro v hv
    have hat := (Tree.find?_eq_some_iff (ht.leads f)).mp hv
    obtain ⟨x, hx⟩ := ht.typed f v hat
    exact h x ⟨v, hat, hx⟩
  rw [Setting.read?, hnone]
  rfl

/-- The settings that a tree gives, and the defaults of the others. -/
theorem exists_values (ht : Partial t) :
    ∃ v : Values, (∀ f : Setting, f.read? t = some (f.get v))
      ∧ (∀ (f : Setting) x, Gives t f x → f.get v = x)
      ∧ ∀ f : Setting, (∀ x, ¬ Gives t f x) → f.get v = f.get .default := by
  have hread : ∀ f : Setting, ∃ x, f.read? t = some x := by
    intro f
    by_cases h : ∃ x, Gives t f x
    · obtain ⟨x, hx⟩ := h
      exact ⟨x, ht.read?_of_gives hx⟩
    · exact ⟨_, ht.read?_of_not_gives (not_exists.mp h)⟩
  choose g hg using hread
  refine ⟨Setting.assemble g, ?_, ?_, ?_⟩
  · intro f
    rw [hg, Setting.get_assemble]
  · intro f x hx
    rw [Setting.get_assemble]
    exact Option.some.inj ((hg f).symm.trans (ht.read?_of_gives hx))
  · intro f h
    rw [Setting.get_assemble]
    exact Option.some.inj ((hg f).symm.trans (ht.read?_of_not_gives h))

theorem ofTree_eq_ok (ht : Partial t) :
    ∃ c, Config.ofTree t = .ok c ∧ c.path = ""
      ∧ (∀ (f : Setting) x, Gives t f x → f.get c.values = x)
      ∧ ∀ f : Setting, (∀ x, ¬ Gives t f x) → f.get c.values = f.get .default := by
  obtain ⟨v, hread, hgiven, hdefault⟩ := ht.exists_values
  have hkeyed : ∃ p, KeyPattern.parse v.aggregate.keyPattern = .ok p := by
    by_cases h : ∃ s, Gives t .keyPattern s
    · obtain ⟨s, hs⟩ := h
      rw [show v.aggregate.keyPattern = s from hgiven .keyPattern s hs]
      exact ht.keyed s hs
    · rw [show v.aggregate.keyPattern = Values.default.aggregate.keyPattern from
        hdefault .keyPattern (not_exists.mp h)]
      exact keyed_default
  obtain ⟨p, hp⟩ := hkeyed
  have hvalues : Values.read? t = some v := Setting.read?_eq_some ht.leads hread
  refine ⟨⟨"", v⟩, ?_, rfl, hgiven, hdefault⟩
  rw [Config.ofTree, hvalues]
  dsimp only
  rw [check, hp]
  rfl

end Partial

/-! ## Changes that settings do not notice -/

namespace Setting

variable {ms ms' fs fs' : List (String × Tree)} {name field : String}

theorem spares_order (f : Setting) (h : ms.Perm ms') :
    Tree.Spares f.path (.record ms) (.record ms') := by
  cases f <;> exact .order h

theorem spares_unknown (f : Setting) (h : name ∉ Values.sectionNames) (v : Tree) :
    Tree.Spares f.path (.record ms) (.record ((name, v) :: ms)) := by
  have hne : ∀ known ∈ Values.sectionNames, name ≠ known := fun known hknown heq => h (heq ▸ hknown)
  cases f <;> exact .other name v (hne _ (by decide))

theorem spares_field_order (f : Setting) (hsection : f.path ≠ [name]) (h : fs.Perm fs') :
    Tree.Spares f.path (.record ((name, .record fs) :: ms))
      (.record ((name, .record fs') :: ms)) := by
  cases f with
  | clientParameters => exact .under fun heq => absurd (congrArg (fun n => [n]) heq.symm) hsection
  | _ => exact .under fun _ => .order h

/-- A further field of a section, known or not, matters to no setting but
the one that it gives. -/
theorem spares_field (f : Setting) (hsection : f.path ≠ [name]) (hfield : f.path ≠ [name, field])
    (v : Tree) :
    Tree.Spares f.path (.record ((name, .record fs) :: ms))
      (.record ((name, .record ((field, v) :: fs)) :: ms)) := by
  cases f with
  | clientParameters => exact .under fun heq => absurd (congrArg (fun n => [n]) heq.symm) hsection
  | _ => exact .under fun heq => .other field v fun hne => hfield (by rw [heq, hne]; rfl)

end Setting

theorem Gives.of_spares {t t' : Tree} {f : Setting} (h : Tree.Spares f.path t t')
    (x : f.kind.Value) : Gives t f x ↔ Gives t' f x :=
  exists_congr fun v => and_congr_left fun _ => h.at_iff v

/-- A tree that gives part of the settings is a configuration: the default
one but for the settings that are given, which are those of the tree. A
setting stays what it is under all changes of the tree beside it, so other
settings that are given or not do not matter to it, and neither the order
of members nor members of unknown names matter at all. -/
theorem ofTree_of_partial {t : Tree} (ht : Partial t) :
    ∃ c, Config.ofTree t = .ok c ∧ c.path = ""
      ∧ (∀ (f : Setting) x, Gives t f x → f.get c.values = x)
      ∧ (∀ f : Setting, (∀ x, ¬ Gives t f x) → f.get c.values = f.get .default)
      ∧ ∀ t', Partial t' → ∃ c', Config.ofTree t' = .ok c'
        ∧ (∀ f : Setting, Tree.Spares f.path t t' → f.get c'.values = f.get c.values)
        ∧ ((∀ f : Setting, Tree.Spares f.path t t') → c' = c) := by
  obtain ⟨c, hc, hpath, hgiven, hdefault⟩ := ht.ofTree_eq_ok
  refine ⟨c, hc, hpath, hgiven, hdefault, fun t' ht' => ?_⟩
  obtain ⟨c', hc', hpath', hgiven', hdefault'⟩ := ht'.ofTree_eq_ok
  have hsame : ∀ f : Setting, Tree.Spares f.path t t' → f.get c'.values = f.get c.values := by
    intro f hspares
    by_cases h : ∃ x, Gives t f x
    · obtain ⟨x, hx⟩ := h
      rw [hgiven f x hx, hgiven' f x ((Gives.of_spares hspares x).mp hx)]
    · have hnot := not_exists.mp h
      rw [hdefault f hnot, hdefault' f fun x hx => hnot x ((Gives.of_spares hspares x).mpr hx)]
  refine ⟨c', hc', hsame, fun hspares => ?_⟩
  have hvalues : c'.values = c.values := Setting.ext_get fun f => hsame f (hspares f)
  cases c
  cases c'
  cases hpath
  cases hpath'
  cases hvalues
  rfl

/-- To a tree that gives one field comes another field of the same section,
and the section and its fields change places with members of unknown
names. -/
theorem ofTree_of_partial_of_two_fields :
    let t : Tree := .record
      [("export", .record [("retries", .number 3), ("add_headers", .flag false)]), ("zone", .null)]
    let t' : Tree := .record [("node", .text "n1"), ("zone", .null),
      ("export", .record [("exchange", .text "telemetry"), ("add_headers", .flag false),
        ("retries", .number 3)])]
    Partial t ∧ Partial t' ∧ ∃ c c', Config.ofTree t = .ok c ∧ Config.ofTree t' = .ok c'
      ∧ c.values.publishing.addHeaders = false ∧ c.values.publishing.exchange = "metrics"
      ∧ ∀ f : Setting, f ≠ .exchange → f.get c'.values = f.get c.values := by
  intro t t'
  have ht : Partial t := by
    refine .of_find? (fun f => ?_) (fun f v hv => ?_) (fun s hs => ?_)
    · cases f <;> simp [t, Setting.path, Tree.Leads, Distinct]
    · cases f <;> simp [t, Setting.path, Tree.find?, Tree.lastMember?] at hv
      exact ⟨false, hv.symm⟩
    · simp [t, Setting.path, Tree.find?, Tree.lastMember?] at hs
  have ht' : Partial t' := by
    refine .of_find? (fun f => ?_) (fun f v hv => ?_) (fun s hs => ?_)
    · cases f <;> simp [t', Setting.path, Tree.Leads, Distinct]
    · cases f <;> simp [t', Setting.path, Tree.find?, Tree.lastMember?] at hv
      · exact ⟨"telemetry", hv.symm⟩
      · exact ⟨false, hv.symm⟩
    · simp [t', Setting.path, Tree.find?, Tree.lastMember?] at hs
  have hspares : ∀ f : Setting, f ≠ .exchange → Tree.Spares f.path t t' := by
    intro f hf
    have hsection : f.path ≠ ["export"] := by cases f <;> simp [Setting.path]
    have hfield : f.path ≠ ["export", "exchange"] := by
      cases f <;> simp [Setting.path] at hf ⊢
    exact .further (f.spares_field_order hsection (.swap _ _ []))
      (.further (f.spares_field hsection hfield (.text "telemetry"))
        (.further (f.spares_order (.swap _ _ [])) (f.spares_unknown (by decide) (.text "n1"))))
  obtain ⟨c, hc, -, hgiven, hdefault, hother⟩ := ofTree_of_partial ht
  obtain ⟨c', hc', hsame, -⟩ := hother t' ht'
  have hexchange : ∀ x, ¬ Gives t .exchange x := by
    rintro x ⟨v, hv, -⟩
    rw [← Tree.find?_eq_some_iff (ht.leads .exchange)] at hv
    simp [t, Setting.path, Tree.find?, Tree.lastMember?] at hv
  refine ⟨ht, ht', c, c', hc, hc', ?_, hdefault .exchange hexchange,
    fun f hf => hsame f (hspares f hf)⟩
  refine hgiven .addHeaders false ⟨.flag false, ?_, rfl⟩
  exact (Tree.find?_eq_some_iff (ht.leads .addHeaders)).mp rfl

end Config

end MetricRelay
