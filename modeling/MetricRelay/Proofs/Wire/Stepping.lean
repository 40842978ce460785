import MetricRelay.Proofs.Wire.Objects
import Mathlib.Logic.Relation

/-!
# What one byte does to a reader

Behind a byte a reader stands among tokens, or within a number to which
the byte belongs, or at the end of a payload whose metric is complete; and
to the parts that have been read it has added only such as can be written
again. `Follows` says all of this, `feed_cases` that it is so, and other
modules know of a byte no more than that. A blank behind the end, which
changes nothing, is the only other case.
-/

namespace MetricRelay.Wire

/-- What can be written as a part of a metric. -/
def Field.Accepts : (f : Field) → f.Content → Prop
  | name, s => s ≠ ""
  | value, x => Float.isFinite x
  | timestamp, t => Instant.InRange t ∧ t = .ofMillis (Instant.millis t)

namespace Field

theorem accepts_ofText {f : Field} {s : String} {c : f.Content} (h : f.ofText s = .ok c) :
    f.Accepts c := by
  cases f with
  | name =>
    rw [ofText] at h
    split at h
    · cases h
    · next hne =>
      cases h
      exact hne
  | value => cases h
  | timestamp => cases h

theorem accepts_ofNumber {f : Field} {x : Float} {n : Option Int} {c : f.Content} (hx : x.isFinite)
    (h : f.ofNumber x n = .ok c) : f.Accepts c := by
  cases f with
  | name => cases h
  | value =>
    cases h
    exact hx
  | timestamp =>
    rw [ofNumber] at h
    split at h
    · next t ht =>
      cases h
      obtain ⟨i, -, hobserved⟩ := Option.bind_eq_some_iff.mp ht
      unfold Instant.ofMillis? at hobserved
      split at hobserved
      · next hrange =>
        cases hobserved
        simp only [Accepts, Instant.InRange, Instant.millis_ofMillis]
        exact ⟨hrange, rfl⟩
      · cases hobserved
    · cases h

end Field

/-! ## Bytes of numbers -/

namespace NumberToken

/-- The bytes that stand in numbers: digits, both signs, the point and the
letters before an exponent. -/
def isPart (b : UInt8) : Bool :=
  (digit? b).isSome || b = 0x2B || b = 0x2D || b = 0x2E || b = 0x45 || b = 0x65

theorem isPart_of_start? {b : UInt8} {t : NumberToken} (h : start? b = some t) : isPart b := by
  unfold start? at h
  split at h
  · next hminus => rw [hminus]; rfl
  split at h
  · next hzero => rw [hzero]; rfl
  · obtain ⟨d, hd, -⟩ := Option.map_eq_some_iff.mp h
    simp [isPart, hd]

theorem isPart_of_feed {b : UInt8} {t t' : NumberToken} (h : t.feed b = .goes t') : isPart b := by
  by_contra hpart
  simp only [isPart, Bool.or_eq_true, decide_eq_true_eq, not_or, Option.not_isSome_iff_eq_none]
    at hpart
  obtain ⟨⟨⟨⟨⟨hdigit, hplus⟩, hminus⟩, hpoint⟩, hupper⟩, hlower⟩ := hpart
  rw [feed, hdigit] at h
  have hother : t.takeOther b = .goes t' := h
  unfold takeOther at hother
  split at hother <;> simp [hplus, hminus, hpoint, hupper, hlower] at hother

end NumberToken

/-! ## Drafts -/

namespace Draft

/-- The second draft has one more part than the first. -/
def Adds (d d' : Draft) : Prop := ∃ f c, Field.Accepts f c ∧ d' = d.set f c

/-- The second draft has more parts than the first, or as many. -/
abbrev Grows : Draft → Draft → Prop := Relation.ReflTransGen Adds

/-- The parts that no metric can be without are there. -/
def Complete (d : Draft) : Prop := d.has .name ∧ d.has .value

end Draft

/-- What is read next is neither a number nor behind the end. -/
def Phase.isOpen : Phase → Bool
  | .number .. | .closed => false
  | _ => true

/-- What a byte makes of a reader with this draft. -/
structure Follows (d : Draft) (b : UInt8) (s : Reader) : Prop where
  grows : d.Grows s.draft
  number : ∀ slot token, s.phase = .number slot token → NumberToken.isPart b
  closed : s.phase = .closed → s.draft.Complete

theorem Follows.of_isOpen {d : Draft} {b : UInt8} {s : Reader} (hgrows : d.Grows s.draft)
    (hopen : s.phase.isOpen) : Follows d b s := by
  refine ⟨hgrows, fun slot token h => ?_, fun h => ?_⟩
  · rw [h] at hopen
    cases hopen
  · rw [h] at hopen
    cases hopen

theorem Follows.of_grows {d d' : Draft} {b : UInt8} {s : Reader} (h : Follows d' b s)
    (hgrows : d.Grows d') : Follows d b s :=
  ⟨hgrows.trans h.grows, h.number, h.closed⟩

namespace Slot

theorem isOpen_after_field (form : Form) (f : Field) : (Slot.field form f).after.isOpen := by
  cases form <;> rfl

theorem isOpen_after_skipped (within : List Bracket) : (Slot.skipped within).after.isOpen := by
  cases within <;> rfl

end Slot

namespace Reader

/-- Without a fault there is a reader that follows. -/
def Leads (d : Draft) (b : UInt8) (e : Except Fault Reader) : Prop := ∀ s, e = .ok s → Follows d b s

/-- Without a fault there is a reader among tokens. -/
def Opens (d : Draft) (e : Except Fault Reader) : Prop :=
  ∀ s, e = .ok s → d.Grows s.draft ∧ s.phase.isOpen

variable {r s : Reader} {b : UInt8} {bs : List UInt8} {phase : Phase}

theorem Opens.leads {d : Draft} {e : Except Fault Reader} (h : Opens d e) (b : UInt8) :
    Leads d b e := by
  intro s hs
  obtain ⟨hgrows, hopen⟩ := h s hs
  exact .of_isOpen hgrows hopen

theorem opens_error (d : Draft) (fault : Fault) : Opens d (.error fault) := by
  rintro s ⟨⟩

theorem opens_goTo (r : Reader) (h : phase.isOpen) : Opens r.draft (r.goTo phase) := by
  rintro s ⟨⟩
  exact ⟨.refl, h⟩

theorem Opens.bind {α : Type} {d : Draft} {e : Except Fault α} {next : α → Except Fault Reader}
    (h : ∀ a, Opens d (next a)) : Opens d (e >>= next) := by
  cases e with
  | error fault => exact opens_error d fault
  | ok a => exact h a

theorem opens_behind {d : Draft} {f : Field} {e : Except Fault f.Content}
    (he : ∀ c, e = .ok c → f.Accepts c) (hphase : phase.isOpen) :
    Opens d (behind phase (e.map (d.set f))) := by
  cases e with
  | error fault => exact opens_error d fault
  | ok c =>
    rintro s ⟨⟩
    exact ⟨.single ⟨f, c, he c rfl, rfl⟩, hphase⟩

/-! ## Complete tokens -/

theorem opens_openBracket (r : Reader) (slot : Slot) (bracket : Bracket) :
    Opens r.draft (r.openBracket slot bracket) := by
  cases slot with
  | document => cases bracket <;> exact opens_goTo r rfl
  | field form f => exact opens_error _ _
  | skipped within => exact opens_goTo r rfl

theorem opens_settleText (r : Reader) (slot : Slot) (content : List UInt8) :
    Opens r.draft (r.settleText slot content) := by
  cases slot with
  | document => exact .bind fun text => opens_error _ _
  | field form f =>
    rw [settleText_field]
    refine opens_behind (fun c hc => ?_) (Slot.isOpen_after_field form f)
    obtain ⟨text, -, hread⟩ := exists_of_bind_eq_ok hc
    exact Field.accepts_ofText hread
  | skipped within => exact opens_goTo r (Slot.isOpen_after_skipped within)

theorem opens_settleNumber (r : Reader) (slot : Slot) (token : NumberToken) :
    Opens r.draft (r.settleNumber slot token) := by
  cases slot with
  | document =>
    show Opens _ (if _ then _ else _)
    split <;> exact opens_error _ _
  | field form f =>
    rw [settleNumber_field]
    refine opens_behind (fun c hc => ?_) (Slot.isOpen_after_field form f)
    split at hc
    · next hfinite => exact Field.accepts_ofNumber hfinite hc
    · cases hc
  | skipped within => exact opens_goTo r (Slot.isOpen_after_skipped within)

theorem opens_settleWord (r : Reader) (slot : Slot) : Opens r.draft (r.settleWord slot) := by
  cases slot with
  | document => exact opens_error _ _
  | field form f => exact opens_error _ _
  | skipped within => exact opens_goTo r (Slot.isOpen_after_skipped within)

theorem opens_settleKey (r : Reader) (content : List UInt8) :
    Opens r.draft (r.settleKey content) := by
  refine .bind fun key => ?_
  split
  · exact opens_goTo r rfl
  · split
    · exact opens_error _ _
    · exact opens_goTo r rfl

theorem leads_close (r : Reader) (b : UInt8) : Leads r.draft b r.close := by
  unfold close
  split
  · next h =>
    rintro s ⟨⟩
    exact ⟨.refl, nofun, fun _ => Bool.and_eq_true_iff.mp h⟩
  · exact (opens_error _ _).leads b

/-! ## Bytes -/

theorem leads_feedValue (r : Reader) (slot : Slot) (b : UInt8) :
    Leads r.draft b (r.feedValue slot b) := by
  unfold feedValue
  split
  · exact (opens_goTo r rfl).leads b
  split
  · exact (opens_goTo r rfl).leads b
  split
  · next token _ _ hstart =>
    rintro s ⟨⟩
    exact ⟨.refl, fun _ _ _ => NumberToken.isPart_of_start? hstart, nofun⟩
  · exact (opens_goTo r rfl).leads b
  · exact (opens_openBracket r _ _).leads b
  · exact (opens_error _ _).leads b

theorem opens_feedWord (r : Reader) (slot : Slot) (rest : List UInt8) (b : UInt8) :
    Opens r.draft (r.feedWord slot rest b) := by
  unfold feedWord
  split
  · split
    · split
      · exact opens_settleWord r slot
      · exact opens_goTo r rfl
    · exact opens_error _ _
  · exact opens_error _ _

theorem opens_feedKeyStart (r : Reader) {phase key : Phase} (hphase : phase.isOpen)
    (hkey : key.isOpen) (b : UInt8) : Opens r.draft (r.feedKeyStart phase key b) := by
  unfold feedKeyStart
  split
  · exact opens_goTo r hphase
  split
  · exact opens_goTo r hkey
  · exact opens_error _ _

theorem opens_feedSkipAfter (r : Reader) (bracket : Bracket) (within : List Bracket) (b : UInt8) :
    Opens r.draft (r.feedSkipAfter bracket within b) := by
  unfold feedSkipAfter
  split
  · exact opens_goTo r rfl
  split
  · exact opens_goTo r (Slot.isOpen_after_skipped within)
  split
  · cases bracket <;> exact opens_goTo r rfl
  · exact opens_error _ _

theorem leads_feedSkipFirst (r : Reader) (bracket : Bracket) (within : List Bracket) (b : UInt8) :
    Leads r.draft b (r.feedSkipFirst bracket within b) := by
  unfold feedSkipFirst
  split
  · exact (opens_goTo r rfl).leads b
  split
  · exact (opens_goTo r (Slot.isOpen_after_skipped within)).leads b
  cases bracket with
  | square => exact leads_feedValue r _ b
  | curly => exact (opens_feedKeyStart r rfl rfl b).leads b

theorem leads_feedAfterElement (r : Reader) (f : Field) (b : UInt8) :
    Leads r.draft b (r.feedAfterElement f b) := by
  unfold feedAfterElement
  split
  · exact (opens_goTo r rfl).leads b
  split
  · exact leads_close r b
  split
  · split
    · exact (opens_goTo r rfl).leads b
    · exact (opens_error _ _).leads b
  · exact (opens_error _ _).leads b

theorem leads_feedAfterMember (r : Reader) (b : UInt8) :
    Leads r.draft b (r.feedAfterMember b) := by
  unfold feedAfterMember
  split
  · exact (opens_goTo r rfl).leads b
  split
  · exact leads_close r b
  split
  · exact (opens_goTo r rfl).leads b
  · exact (opens_error _ _).leads b

theorem leads_feedToken (r : Reader) (h : phase.isOpen) (b : UInt8) :
    Leads r.draft b (r.feedToken phase b) := by
  cases phase with
  | value slot => exact leads_feedValue r slot b
  | text slot token =>
    refine Opens.leads (.bind fun step => ?_) b
    cases step with
    | goes token => exact opens_goTo r rfl
    | closed content => exact opens_settleText r slot content
  | number slot token => cases h
  | word slot rest => exact (opens_feedWord r slot rest b).leads b
  | firstElement =>
    show Leads _ _ (if _ then _ else if _ then _ else _)
    split
    · exact (opens_goTo r rfl).leads b
    split
    · exact leads_close r b
    · exact leads_feedValue r _ b
  | afterElement f => exact leads_feedAfterElement r f b
  | firstMember =>
    show Leads _ _ (if _ then _ else _)
    split
    · exact leads_close r b
    · exact (opens_feedKeyStart r rfl rfl b).leads b
  | nextMember => exact (opens_feedKeyStart r rfl rfl b).leads b
  | afterMember => exact leads_feedAfterMember r b
  | key token =>
    refine Opens.leads (.bind fun step => ?_) b
    cases step with
    | goes token => exact opens_goTo r rfl
    | closed content => exact opens_settleKey r content
  | colon slot =>
    show Leads _ _ (if _ then _ else if _ then _ else _)
    split
    · exact (opens_goTo r rfl).leads b
    split
    · exact (opens_goTo r rfl).leads b
    · exact (opens_error _ _).leads b
  | skipFirst bracket within => exact leads_feedSkipFirst r bracket within b
  | skipNext within => exact (opens_feedKeyStart r rfl rfl b).leads b
  | skipAfter bracket within => exact (opens_feedSkipAfter r bracket within b).leads b
  | skipKey token within =>
    refine Opens.leads (.bind fun step => ?_) b
    cases step with
    | goes token => exact opens_goTo r rfl
    | closed content => exact opens_goTo r rfl
  | closed => cases h

/-- The digits of a number and the byte behind it. -/
theorem leads_number (d : Draft) (slot : Slot) (token : NumberToken) (b : UInt8) :
    Leads d b ((⟨d, .number slot token⟩ : Reader).feed b) := by
  unfold feed
  dsimp only
  split
  · next hfeed =>
    rintro s ⟨⟩
    exact ⟨.refl, fun _ _ _ => NumberToken.isPart_of_feed hfeed, nofun⟩
  · -- the byte that ends a number is read twice
    intro s hs
    obtain ⟨t, hsettle, hfeed⟩ := exists_of_bind_eq_ok hs
    obtain ⟨hgrows, hopen⟩ := opens_settleNumber _ slot token t hsettle
    exact (leads_feedToken t hopen b s hfeed).of_grows hgrows
  · exact (opens_error _ _).leads b

theorem leads_feed (d : Draft) (h : phase.isOpen) (b : UInt8) :
    Leads d b ((⟨d, phase⟩ : Reader).feed b) := by
  have hfeed : (⟨d, phase⟩ : Reader).feed b = (⟨d, phase⟩ : Reader).feedToken phase b := by
    cases phase with
    | number slot token => cases h
    | _ => rfl
  rw [hfeed]
  exact leads_feedToken _ h b

/-- Behind a byte there is a reader that follows; only a blank behind the
end leaves the reader as it was. -/
theorem feed_cases (h : r.feed b = .ok s) : Follows r.draft b s ∨ r.phase = .closed ∧ s = r := by
  obtain ⟨d, phase⟩ := r
  cases phase with
  | number slot token => exact Or.inl (leads_number d slot token b s h)
  | closed =>
    have hfeed : (if isBlank b then goTo ⟨d, .closed⟩ .closed else .error .malformed) = .ok s := h
    split at hfeed
    · cases hfeed
      exact Or.inr ⟨rfl, rfl⟩
    · cases hfeed
  | _ => exact Or.inl (leads_feed d rfl b s h)

theorem grows_of_feed (h : r.feed b = .ok s) : r.draft.Grows s.draft := by
  rcases feed_cases h with hfollows | ⟨-, rfl⟩
  · exact hfollows.grows
  · exact .refl

theorem complete_of_feed (hr : r.phase = .closed → r.draft.Complete) (h : r.feed b = .ok s) :
    s.phase = .closed → s.draft.Complete := by
  rcases feed_cases h with hfollows | ⟨-, rfl⟩
  · exact hfollows.closed
  · exact hr

theorem isPart_of_feed {slot : Slot} {token : NumberToken} (h : r.feed b = .ok s)
    (hs : s.phase = .number slot token) : NumberToken.isPart b := by
  rcases feed_cases h with hfollows | ⟨hclosed, rfl⟩
  · exact hfollows.number slot token hs
  · cases hclosed.symm.trans hs

/-! ## Many bytes -/

theorem grows_of_reads (h : Reads r bs s) : r.draft.Grows s.draft := by
  induction bs generalizing r with
  | nil =>
    cases h
    exact .refl
  | cons b bs ih =>
    obtain ⟨t, hfeed, hrest⟩ := exists_of_reads_cons h
    exact (grows_of_feed hfeed).trans (ih hrest)

theorem complete_of_reads (hr : r.phase = .closed → r.draft.Complete) (h : Reads r bs s) :
    s.phase = .closed → s.draft.Complete := by
  induction bs generalizing r with
  | nil =>
    cases h
    exact hr
  | cons b bs ih =>
    obtain ⟨t, hfeed, hrest⟩ := exists_of_reads_cons h
    exact ih (complete_of_feed hr hfeed) hrest

/-- A reader is within a number only behind a byte of numbers. -/
theorem isPart_of_reads {slot : Slot} {token : NumberToken} (h : Reads .start bs s)
    (hs : s.phase = .number slot token) : ∃ b ∈ bs.getLast?, NumberToken.isPart b := by
  obtain rfl | ⟨bs, b, rfl⟩ := bs.eq_nil_or_concat
  · cases h
    cases hs
  · rw [List.concat_eq_append] at *
    obtain ⟨r, -, hlast⟩ := exists_of_reads_append h
    exact ⟨b, List.getLast?_concat, isPart_of_feed (feed_of_reads_single hlast) hs⟩

end Reader

end MetricRelay.Wire
