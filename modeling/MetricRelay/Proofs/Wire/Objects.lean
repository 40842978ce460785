import MetricRelay.Proofs.Wire.Values

/-!
# Which objects are metrics

An object carries a metric just when its members say so (`Object.Carries`):
one name, one value, at most one timestamp, each of them fit for its part;
decoding the object finds this metric (`decode_eq_ok_iff_carries`). Nothing
else matters (`Object.Carries.congr`), neither the order of the members nor
the blanks, nor how a key is spelled, nor what other members hold.

A reader is first seen to take each member as a whole (`readOn_member`),
so that decoding an object is a fold of `Draft.takeMember` over its
members. `foldlM_takeMember` turns the fold around: it succeeds just when
each part of the metric is filled at most once, and with what stands
under its key.
-/

namespace MetricRelay.Wire

/-! ## Members -/

/-- A member is taken for the part under its key, if there is one. -/
def Draft.takeMember (d : Draft) (m : Member) : Except Fault Draft :=
  match Field.ofKey? m.name with
  | none => .ok d
  | some f => if d.has f then .error .mistyped else (f.read m.value).map (d.set f)

namespace Reader

variable {r : Reader} {d : Draft} {bs : List UInt8} {phase : Phase} {e : Except Fault Draft}

theorem Settles.append_blanks (h : Settles r bs (behind phase e)) (hidle : idle phase)
    (ws : List Blank) : Settles r (bs ++ blanks ws) (behind phase e) := by
  intro b hb
  cases ws with
  | nil =>
    rw [blanks, List.map_nil, List.append_nil]
    exact h b hb
  | cons w ws =>
    have hsplit : bs ++ blanks (w :: ws) ++ [b] = bs ++ w.byte :: (blanks ws ++ [b]) := by
      simp [blanks]
    rw [hsplit, h.readOn (blank_follows w)]
    cases e with
    | error fault => rfl
    | ok d =>
      have hblanks := (reads_blanks d hidle (w :: ws)).readOn [b]
      rw [readOn_single] at hblanks
      exact hblanks

theorem settles_colon {slot : Slot} {v : Tree .value}
    (h : Settles ⟨d, .value slot⟩ v.bytes (behind phase e)) (hidle : idle phase)
    (beforeColon behindColon behindValue : List Blank) :
    Settles ⟨d, .colon slot⟩
      (blanks beforeColon ++ 0x3A :: (blanks behindColon ++ (v.bytes ++ blanks behindValue)))
      (behind phase e) := by
  have hcolon : (⟨d, .colon slot⟩ : Reader).feed 0x3A = .ok ⟨d, .value slot⟩ := rfl
  have hreads : Reads ⟨d, .colon slot⟩ (blanks beforeColon ++ 0x3A :: blanks behindColon)
      ⟨d, .value slot⟩ :=
    (reads_blanks d rfl beforeColon).append (.cons hcolon (reads_blanks d rfl behindColon))
  have hsettles := hreads.settles_append (h.append_blanks hidle behindValue)
  rwa [List.append_assoc, List.cons_append] at hsettles

theorem readOn_key (hphase : phase = .firstMember ∨ phase = .nextMember) (d : Draft) (m : Member)
    (bs : List UInt8) :
    (⟨d, phase⟩ : Reader).readOn (blanks m.before ++ (quotedBytes m.key ++ bs))
      = (match Field.ofKey? m.name with
        | none => .ok ⟨d, .colon (.skipped [])⟩
        | some f =>
          if d.has f then .error .mistyped
          else .ok ⟨d, .colon (.field .object f)⟩ : Except Fault Reader).bind
        fun s => s.readOn bs := by
  have hidle : idle phase := by rcases hphase with rfl | rfl <;> rfl
  have hopen : (⟨d, phase⟩ : Reader).feed 0x22 = .ok ⟨d, .key (.holding [])⟩ := by
    rcases hphase with rfl | rfl <;> rfl
  obtain ⟨content, hcontent, htext⟩ := Option.bind_eq_some_iff.mp m.named
  have hkey := (hosts_key d).readOn_content m.key []
  have hquoted : (⟨d, phase⟩ : Reader).readOn (quotedBytes m.key)
      = (⟨d, .key (.holding [])⟩ : Reader).readOn (m.key.flatMap Glyph.bytes ++ [0x22]) := by
    rw [quotedBytes_eq, readOn_cons, hopen]
    rfl
  rw [(reads_blanks d hidle m.before).readOn, readOn_append, hquoted, hkey, hcontent]
  simp only [List.append_nil, settleKey, TextToken.textOf, List.reverse_reverse, htext]
  rw [ok_bind]
  rfl

/-- What a member does to the reader in front of it. -/
theorem settles_member (hphase : phase = .firstMember ∨ phase = .nextMember) (d : Draft)
    (m : Member) : Settles ⟨d, phase⟩ m.bytes (behind .afterMember (d.takeMember m)) := by
  intro b hb
  have hbytes : m.bytes ++ [b] = blanks m.before ++ (quotedBytes m.key
      ++ (blanks m.beforeColon ++ 0x3A :: (blanks m.behindColon
        ++ (m.value.bytes ++ blanks m.behind)) ++ [b])) := by
    simp [Member.bytes]
  rw [hbytes, readOn_key hphase, Draft.takeMember]
  cases Field.ofKey? m.name with
  | none => exact settles_colon (e := .ok d) (skips m.value d []) rfl _ _ _ b hb
  | some f =>
    dsimp only
    by_cases hhas : d.has f
    · rw [if_pos hhas, if_pos hhas]
      rfl
    · rw [if_neg hhas, if_neg hhas]
      exact settles_colon (settles_field d .object f m.value) rfl _ _ _ b hb

theorem readOn_member (hphase : phase = .firstMember ∨ phase = .nextMember) (d : Draft)
    (m : Member) (ms : List Member) (cs : List UInt8) :
    (⟨d, phase⟩ : Reader).readOn
        (m.bytes ++ ((ms.flatMap fun m => 0x2C :: m.bytes) ++ 0x7D :: cs))
      = (d.takeMember m).bind fun d => (⟨d, .afterMember⟩ : Reader).readOn
        ((ms.flatMap fun m => 0x2C :: m.bytes) ++ 0x7D :: cs) := by
  have hhead : ∃ b bs, (ms.flatMap fun m => 0x2C :: m.bytes) ++ 0x7D :: cs = b :: bs
      ∧ follows b := by
    cases ms with
    | nil => exact ⟨_, _, rfl, rfl⟩
    | cons m ms => exact ⟨_, _, rfl, rfl⟩
  obtain ⟨b, bs, hbytes, hb⟩ := hhead
  rw [hbytes, (settles_member hphase d m).readOn hb bs]
  cases d.takeMember m <;> rfl

/-- The members up to the closing bracket. -/
theorem readOn_members (d : Draft) (ms : List Member) (cs : List UInt8) :
    (⟨d, .afterMember⟩ : Reader).readOn ((ms.flatMap fun m => 0x2C :: m.bytes) ++ 0x7D :: cs)
      = (ms.foldlM Draft.takeMember d).bind fun d =>
        (⟨d, .afterMember⟩ : Reader).readOn (0x7D :: cs) := by
  induction ms generalizing d with
  | nil => rfl
  | cons m ms ih =>
    have hcomma : (⟨d, .afterMember⟩ : Reader).feed 0x2C = .ok ⟨d, .nextMember⟩ := rfl
    rw [List.flatMap_cons, List.append_assoc, List.cons_append, readOn_cons, hcomma,
      List.foldlM_cons]
    refine (readOn_member (Or.inr rfl) d m ms cs).trans ?_
    cases d.takeMember m with
    | error fault => rfl
    | ok d' => exact ih d'

end Reader

open Reader

/-! ## Objects -/

/-- The metric of a draft whose object has ended. -/
def Draft.metric (d : Draft) (now : Instant) : Except Fault Metric :=
  match d.metric? now with
  | some m => .ok m
  | none => .error .mistyped

theorem finish_closing (now : Instant) (d : Draft) {phase : Phase}
    (hphase : phase = .firstMember ∨ phase = .afterMember) (ws : List Blank) :
    (((⟨d, phase⟩ : Reader).readOn (0x7D :: blanks ws)).bind fun r => r.finish now)
      = d.metric now := by
  have hclose : (⟨d, phase⟩ : Reader).feed 0x7D = (⟨d, phase⟩ : Reader).close := by
    rcases hphase with rfl | rfl <;> rfl
  have hblanks : (⟨d, .closed⟩ : Reader).readOn (blanks ws) = .ok ⟨d, .closed⟩ :=
    reads_blanks d rfl ws
  obtain ⟨name, value, timestamp⟩ := d
  rw [readOn_cons, hclose]
  cases name with
  | none => rfl
  | some name =>
    cases value with
    | none => rfl
    | some value =>
      show ((Reader.readOn _ _).bind _) = _
      rw [hblanks]
      rfl

/-- Decoding an object takes its members one after the other. -/
theorem decode_bytes (now : Instant) (o : Object) :
    decode now o.bytes = (o.members.foldlM Draft.takeMember .blank).bind fun d => d.metric now := by
  have hopen : (⟨.blank, .value .document⟩ : Reader).feed 0x7B = .ok ⟨.blank, .firstMember⟩ := rfl
  have hreads : readAll o.bytes
      = (⟨.blank, .firstMember⟩ : Reader).readOn (o.inner ++ 0x7D :: blanks o.behind) := by
    show Reader.start.readOn o.bytes = _
    rw [Object.bytes, Reader.start, (reads_blanks .blank rfl o.before).readOn, readOn_cons, hopen]
    rfl
  show (readAll o.bytes).bind (fun r => r.finish now) = _
  rw [hreads, Object.inner]
  cases o.members with
  | nil =>
    dsimp only
    rw [(reads_blanks .blank rfl o.within).readOn]
    exact finish_closing now .blank (Or.inl rfl) o.behind
  | cons m ms =>
    dsimp only
    rw [List.append_assoc, readOn_member (Or.inl rfl), List.foldlM_cons]
    cases Draft.blank.takeMember m with
    | error fault => rfl
    | ok d =>
      show Except.bind (Reader.readOn _ _) _ = Except.bind (List.foldlM _ _ _) _
      rw [readOn_members]
      cases ms.foldlM Draft.takeMember d with
      | error fault => rfl
      | ok d => exact finish_closing now d (Or.inr rfl) o.behind

/-! ## Members in any order -/

namespace Draft

variable {d d' : Draft} {f g : Field}

theorem ext_get (h : ∀ f, d.get f = d'.get f) : d = d' := by
  obtain ⟨name, value, timestamp⟩ := d
  obtain ⟨name', value', timestamp'⟩ := d'
  have hname : name = name' := h .name
  have hvalue : value = value' := h .value
  have htimestamp : timestamp = timestamp' := h .timestamp
  rw [hname, hvalue, htimestamp]

theorem has_eq (d : Draft) (f : Field) : d.has f = (d.get f).isSome := by
  cases f <;> rfl

theorem get_set_self (d : Draft) (f : Field) (c : f.Content) : (d.set f c).get f = some c := by
  cases f <;> rfl

theorem get_set_of_ne (d : Draft) (c : f.Content) (h : g ≠ f) : (d.set f c).get g = d.get g := by
  cases f <;> cases g <;> first | rfl | exact absurd rfl h

end Draft

theorem valuesUnder_cons_self {f : Field} {m : Member} (h : m.name = f.key) (ms : List Member) :
    valuesUnder f (m :: ms) = m.value :: valuesUnder f ms := by
  rw [valuesUnder, List.filterMap_cons, if_pos h]
  rfl

theorem valuesUnder_cons_of_ne {f : Field} {m : Member} (h : m.name ≠ f.key) (ms : List Member) :
    valuesUnder f (m :: ms) = valuesUnder f ms := by
  rw [valuesUnder, List.filterMap_cons, if_neg h]
  rfl

/-- What the values under its key make of a part of the metric: at most
one may fill it. -/
def Filled (f : Field) (before : Option f.Content) :
    List (Tree .value) → Option f.Content → Prop
  | [], after => after = before
  | [v], after => before = none ∧ ∃ c, f.read v = .ok c ∧ after = some c
  | _ :: _ :: _, _ => False

theorem not_filled_some {f : Field} {c : f.Content} {v : Tree .value} {vs : List (Tree .value)}
    {after : Option f.Content} : ¬ Filled f (some c) (v :: vs) after := by
  cases vs with
  | nil => rintro ⟨⟨⟩, -⟩
  | cons w ws => exact id

theorem not_filled_error {f : Field} {before after : Option f.Content} {v : Tree .value}
    {vs : List (Tree .value)} {fault : Fault} (h : f.read v = .error fault) :
    ¬ Filled f before (v :: vs) after := by
  cases vs with
  | nil =>
    rintro ⟨-, c, hread, -⟩
    rw [h] at hread
    cases hread
  | cons w ws => exact id

theorem filled_cons {f : Field} {c : f.Content} {v : Tree .value} (h : f.read v = .ok c)
    (vs : List (Tree .value)) (after : Option f.Content) :
    Filled f none (v :: vs) after ↔ Filled f (some c) vs after := by
  cases vs with
  | nil =>
    constructor
    · rintro ⟨-, c', hread, hafter⟩
      rw [h] at hread
      cases hread
      exact hafter
    · intro hafter
      exact ⟨rfl, c, h, hafter⟩
  | cons w ws => exact ⟨False.elim, not_filled_some⟩

/-- Members fill a draft just when those under each key do. -/
theorem foldlM_takeMember (d : Draft) (ms : List Member) (d' : Draft) :
    ms.foldlM Draft.takeMember d = .ok d'
      ↔ ∀ f, Filled f (d.get f) (valuesUnder f ms) (d'.get f) := by
  induction ms generalizing d with
  | nil =>
    constructor
    · rintro ⟨⟩ f
      rfl
    · intro h
      exact congrArg Except.ok (Draft.ext_get fun f => (h f).symm)
  | cons m ms ih =>
    rw [List.foldlM_cons, Draft.takeMember]
    cases hkey : Field.ofKey? m.name with
    | none =>
      have hne : ∀ f : Field, m.name ≠ f.key := by
        intro f hf
        rw [Field.ofKey?_eq_some_iff.mpr hf] at hkey
        cases hkey
      simp only [valuesUnder_cons_of_ne (hne _)]
      exact ih d
    | some f =>
      -- the member is for `f` alone, and it is refused where `f` is filled
      have hf : m.name = f.key := Field.ofKey?_eq_some_iff.mp hkey
      have hothers : ∀ g, g ≠ f → m.name ≠ g.key := by
        rintro g hg hname
        rw [Field.ofKey?_eq_some_iff.mpr hname] at hkey
        exact hg (Option.some.inj hkey)
      dsimp only
      cases hget : d.get f with
      | some c =>
        have hhas : d.has f := by rw [Draft.has_eq, hget]; rfl
        rw [if_pos hhas]
        refine ⟨nofun, fun h => ?_⟩
        have hfull := h f
        rw [valuesUnder_cons_self hf, hget] at hfull
        exact absurd hfull not_filled_some
      | none =>
        have hhas : ¬ d.has f := by simp [Draft.has_eq, hget]
        rw [if_neg hhas]
        cases hread : f.read m.value with
        | error fault =>
          refine ⟨nofun, fun h => ?_⟩
          have hbad := h f
          rw [valuesUnder_cons_self hf] at hbad
          exact absurd hbad (not_filled_error hread)
        | ok c =>
          refine (ih (d.set f c)).trans (forall_congr' fun g => ?_)
          by_cases hg : g = f
          · subst hg
            rw [Draft.get_set_self, valuesUnder_cons_self hf, hget, filled_cons hread]
          · rw [Draft.get_set_of_ne d c hg, valuesUnder_cons_of_ne (hothers g hg)]

/-! ## Parts -/

namespace Literal

/-- An integer that can be observed is in range as a number. -/
theorem isFinite_value {n : Literal} {t : Int} (h : n.integer? = some t)
    (hfirst : Instant.firstMillis ≤ t) (hlast : t ≤ Instant.lastMillis) : n.value.isFinite := by
  unfold Instant.firstMillis at hfirst
  unfold Instant.lastMillis at hlast
  unfold integer? at h
  split at h
  · next hfraction hpower =>
    have hmantissa : n.numeral.mantissa = Number.digitsValue 0 n.whole := by
      simp [numeral, hfraction]
    have hsmall : n.numeral.mantissa < 2 ^ 64 := by
      rw [hmantissa]
      split at h
      · split at h
        · cases h
        · have ht := Option.some.inj h
          omega
      · have ht := Option.some.inj h
        omega
    refine Number.Numeral.isFinite_scaled_of_lt hsmall (Number.isFinite_shifted_of_nonpos hsmall ?_)
    simp [numeral, hfraction, hpower]
  · cases h

end Literal

namespace Field

theorem read_name {v : Tree .value} {s : String} :
    name.read v = .ok s ↔ ∃ gs, v = .text gs ∧ text? gs = some s ∧ s ≠ "" := by
  constructor
  · intro h
    cases v with
    | word w => cases h
    | nested bracket body => cases h
    | number n =>
      rw [read] at h
      split at h <;> cases h
    | text gs =>
      rw [read] at h
      split at h
      · next text htext =>
        rw [ofText] at h
        split at h
        · cases h
        · next hne =>
          cases h
          exact ⟨gs, rfl, htext, hne⟩
      · cases h
  · rintro ⟨gs, rfl, htext, hne⟩
    simp only [read, htext, ofText, if_neg hne]

theorem read_value {v : Tree .value} {x : Float} :
    value.read v = .ok x ↔ ∃ n, v = .number n ∧ n.value.isFinite ∧ x = n.value := by
  constructor
  · intro h
    cases v with
    | word w => cases h
    | nested bracket body => cases h
    | text gs =>
      rw [read] at h
      split at h <;> cases h
    | number n =>
      rw [read] at h
      split at h
      · next hfinite =>
        cases h
        exact ⟨n, rfl, hfinite, rfl⟩
      · cases h
  · rintro ⟨n, rfl, hfinite, rfl⟩
    rw [read, if_pos hfinite]
    rfl

theorem read_timestamp {v : Tree .value} {t : Instant} :
    timestamp.read v = .ok t ↔ ∃ n i, v = .number n ∧ n.integer? = some i
      ∧ Instant.firstMillis ≤ i ∧ i ≤ Instant.lastMillis ∧ t = .ofMillis i := by
  constructor
  · intro h
    cases v with
    | word w => cases h
    | nested bracket body => cases h
    | text gs =>
      rw [read] at h
      split at h <;> cases h
    | number n =>
      rw [read] at h
      split at h
      · rw [ofNumber] at h
        split at h
        · next t' ht' =>
          obtain ⟨i, hi, hobserved⟩ := Option.bind_eq_some_iff.mp ht'
          unfold Instant.ofMillis? at hobserved
          split at hobserved
          · next hrange =>
            cases hobserved
            cases h
            exact ⟨n, i, rfl, hi, hrange.1, hrange.2, rfl⟩
          · cases hobserved
        · cases h
      · cases h
  · rintro ⟨n, i, rfl, hi, hfirst, hlast, rfl⟩
    have hobserved : Instant.ofMillis? i = some (.ofMillis i) := if_pos ⟨hfirst, hlast⟩
    rw [read, if_pos (Literal.isFinite_value hi hfirst hlast), ofNumber, hi, Option.bind_some,
      hobserved]

end Field

/-! ## What an object carries -/

/-- What the values under the key of the timestamp say of the instant of a
metric that is read `now`. -/
inductive Dates (now : Instant) : List (Tree .value) → Instant → Prop
  | absent : Dates now [] now
  | given {n : Literal} {t : Int} (h : n.integer? = some t) (hfirst : Instant.firstMillis ≤ t)
      (hlast : t ≤ Instant.lastMillis) : Dates now [.number n] (.ofMillis t)

/-- The members of the object say that it is this metric. -/
structure Object.Carries (o : Object) (now : Instant) (m : Metric) : Prop where
  name : ∃ gs, o.under .name = [.text gs] ∧ text? gs = some m.name
  named : m.name ≠ ""
  value : ∃ n, o.under .value = [.number n] ∧ n.value.isFinite ∧ m.value = n.value
  observed : Dates now (o.under .timestamp) m.observed

theorem filled_some {f : Field} {vs : List (Tree .value)} {c : f.Content} :
    Filled f none vs (some c) ↔ ∃ v, vs = [v] ∧ f.read v = .ok c := by
  rcases vs with _ | ⟨v, _ | ⟨w, ws⟩⟩
  · simp [Filled]
  · simp [Filled]
  · simp [Filled]

theorem dates_iff (now : Instant) (vs : List (Tree .value)) (t : Instant) :
    Dates now vs t ↔ ∃ after : Option Instant, Filled .timestamp none vs after ∧ after.getD now = t := by
  constructor
  · rintro (_ | ⟨h, hfirst, hlast⟩)
    · exact ⟨none, rfl, rfl⟩
    · refine ⟨some _, filled_some.mpr ⟨_, rfl, ?_⟩, rfl⟩
      exact Field.read_timestamp.mpr ⟨_, _, rfl, h, hfirst, hlast, rfl⟩
  · rintro ⟨_ | after, hfilled, rfl⟩
    · rcases vs with _ | ⟨v, _ | ⟨w, ws⟩⟩
      · exact .absent
      · obtain ⟨-, c, -, hnone⟩ := hfilled
        cases hnone
      · cases hfilled
    · obtain ⟨v, rfl, hread⟩ := filled_some.mp hfilled
      obtain ⟨n, i, rfl, hi, hfirst, hlast, rfl⟩ := Field.read_timestamp.mp hread
      exact .given hi hfirst hlast

theorem Draft.metric_eq_ok_iff {d : Draft} {now : Instant} {m : Metric} :
    d.metric now = .ok m
      ↔ d.get .name = some m.name ∧ d.get .value = some m.value
        ∧ (d.get .timestamp).getD now = m.observed := by
  obtain ⟨name, value, timestamp⟩ := d
  obtain ⟨name', value', observed⟩ := m
  cases name with
  | none => exact ⟨nofun, nofun⟩
  | some name =>
    cases value with
    | none => exact ⟨nofun, nofun⟩
    | some value =>
      constructor
      · rintro ⟨⟩
        exact ⟨rfl, rfl, rfl⟩
      · rintro ⟨hname, hvalue, hobserved⟩
        have hname : name = name' := Option.some.inj hname
        have hvalue : value = value' := Option.some.inj hvalue
        have hobserved : timestamp.getD now = observed := hobserved
        rw [← hname, ← hvalue, ← hobserved]
        rfl

theorem decode_eq_ok_iff_carries (now : Instant) (o : Object) (m : Metric) :
    decode now o.bytes = .ok m ↔ o.Carries now m := by
  rw [decode_bytes]
  constructor
  · intro h
    obtain ⟨d, hfold, hmetric⟩ := exists_of_bind_eq_ok h
    obtain ⟨hname, hvalue, hobserved⟩ := Draft.metric_eq_ok_iff.mp hmetric
    have hfilled := (foldlM_takeMember .blank o.members d).mp hfold
    have hnames := hfilled .name
    have hvalues := hfilled .value
    rw [hname] at hnames
    rw [hvalue] at hvalues
    obtain ⟨v, hunderName, hreadName⟩ := filled_some.mp hnames
    obtain ⟨w, hunderValue, hreadValue⟩ := filled_some.mp hvalues
    obtain ⟨gs, rfl, htext, hne⟩ := Field.read_name.mp hreadName
    obtain ⟨n, rfl, hfinite, heq⟩ := Field.read_value.mp hreadValue
    exact ⟨⟨gs, hunderName, htext⟩, hne, ⟨n, hunderValue, hfinite, heq⟩,
      (dates_iff _ _ _).mpr ⟨_, hfilled .timestamp, hobserved⟩⟩
  · rintro ⟨⟨gs, hunderName, htext⟩, hne, ⟨n, hunderValue, hfinite, heq⟩, hdates⟩
    obtain ⟨after, hfilled, hobserved⟩ := (dates_iff _ _ _).mp hdates
    have hfold : o.members.foldlM Draft.takeMember .blank
        = .ok ⟨some m.name, some m.value, after⟩ := by
      refine (foldlM_takeMember _ _ _).mpr fun f => ?_
      cases f with
      | name =>
        exact filled_some.mpr ⟨_, hunderName, Field.read_name.mpr ⟨gs, rfl, htext, hne⟩⟩
      | value =>
        exact filled_some.mpr ⟨_, hunderValue, Field.read_value.mpr ⟨n, rfl, hfinite, heq⟩⟩
      | timestamp => exact hfilled
    rw [hfold]
    show Draft.metric ⟨some m.name, some m.value, after⟩ now = .ok m
    exact Draft.metric_eq_ok_iff.mpr ⟨rfl, rfl, hobserved⟩

/-- Under the keys of the metric the same values, in whatever order. -/
theorem Object.Carries.congr {o o' : Object} (h : ∀ f, (o'.under f).Perm (o.under f))
    {now : Instant} {m : Metric} (hm : o.Carries now m) : o'.Carries now m := by
  obtain ⟨⟨gs, hname, htext⟩, hne, ⟨n, hvalue, hfinite, heq⟩, hdates⟩ := hm
  have hnames := h .name
  have hvalues := h .value
  have htimestamps := h .timestamp
  rw [hname] at hnames
  rw [hvalue] at hvalues
  refine ⟨⟨gs, List.perm_singleton.mp hnames, htext⟩, hne,
    ⟨n, List.perm_singleton.mp hvalues, hfinite, heq⟩, ?_⟩
  generalize o.under .timestamp = vs, m.observed = t at hdates htimestamps
  cases hdates with
  | absent =>
    rw [List.perm_nil.mp htimestamps]
    exact .absent
  | given hinteger hfirst hlast =>
    rw [List.perm_singleton.mp htimestamps]
    exact .given hinteger hfirst hlast

/-- An object is decoded as the metric that it carries, if it carries one,
and all else about it is without effect. -/
theorem decode_object (now : Instant) (o : Object) (m : Metric) :
    (decode now o.bytes = .ok m ↔ o.Carries now m)
      ∧ ∀ o' : Object, (∀ f, (o'.under f).Perm (o.under f)) →
        (decode now o'.bytes = .ok m ↔ decode now o.bytes = .ok m) := by
  refine ⟨decode_eq_ok_iff_carries now o m, fun o' h => ?_⟩
  rw [decode_eq_ok_iff_carries, decode_eq_ok_iff_carries]
  exact ⟨.congr fun f => (h f).symm, .congr h⟩

theorem text?_of_content? {gs : List Glyph} {s : String} (h : content? gs = some (Utf8.encode s)) :
    text? gs = some s := by
  rw [text?, h, Option.bind_some, Utf8.decode?_encode]

/-- The members in two orders: a name whose key is written with a code,
the value -1.5e+1, and a member between them that is skipped. -/
theorem decode_object_of_two_orders :
    let name : Member := ⟨[.code ⟨⟨0, false⟩, ⟨0, false⟩, ⟨6, false⟩, ⟨14, true⟩⟩,
        .plain 0x61 (by decide), .plain 0x6D (by decide), .plain 0x65 (by decide)], "name",
      text?_of_content? rfl, .text [.escape .quote], [.space], [], [.tab], []⟩
    let other : Member := ⟨[], "", text?_of_content? rfl,
      .nested .curly (.first [] (.member [.escape .slash] [.space] [])
        (.nested .square (.first [] .element (.word .null) (.last []))) (.last [.lineFeed])),
      [], [], [], [.space]⟩
    let value : Member := ⟨[.plain 0x76 (by decide), .plain 0x61 (by decide),
        .plain 0x6C (by decide), .plain 0x75 (by decide), .plain 0x65 (by decide)], "value",
      text?_of_content? rfl,
      .number ⟨true, ['1'], ['5'],
        some ⟨false, .plus, ['1'], List.cons_ne_nil _ _, List.forall_mem_singleton.mpr rfl⟩,
        List.forall_mem_singleton.mpr rfl, Or.inr ⟨'1', [], rfl, by decide⟩,
        List.forall_mem_singleton.mpr rfl⟩, [], [], [], []⟩
    let o : Object := ⟨[name, other, value], [.space], [], [.lineFeed]⟩
    let o' : Object := ⟨[value, name], [], [], []⟩
    (∀ f, (o'.under f).Perm (o.under f))
      ∧ decode ⟨7⟩ o.bytes = .ok ⟨"\"", -15, ⟨7⟩⟩ ∧ decode ⟨7⟩ o'.bytes = .ok ⟨"\"", -15, ⟨7⟩⟩ := by
  intro name other value o o'
  have hunder : ∀ f, (o'.under f).Perm (o.under f) := by
    intro f
    cases f <;> exact .rfl
  have hcarries : o.Carries ⟨7⟩ ⟨"\"", -15, ⟨7⟩⟩ :=
    ⟨⟨_, rfl, text?_of_content? rfl⟩, by decide, ⟨_, rfl, by decide, by decide⟩, .absent⟩
  obtain ⟨hdecode, hsame⟩ := decode_object ⟨7⟩ o ⟨"\"", -15, ⟨7⟩⟩
  have hok := hdecode.mpr hcarries
  exact ⟨hunder, hok, (hsame o' hunder).mpr hok⟩

end MetricRelay.Wire
