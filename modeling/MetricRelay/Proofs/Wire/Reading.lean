import MetricRelay.Proofs.Wire.Numbers
import MetricRelay.Proofs.Wire.Texts
import MetricRelay.Wire.Reader

/-!
# Readers and tokens

What some bytes do to a reader: `readOn` is the reader behind them, if
there is no fault, and `Reads` says which one that is. Within a text or a
number the reader does what its token does, so what is known of a token
that is fed many bytes carries over, for texts in whichever phase they
stand (`Hosts.reads`) and for numbers up to the byte that ends them
(`reads_number`, `feed_behind`).
-/

namespace MetricRelay.Wire

theorem Field.ofKey?_eq_some_iff {key : String} {f : Field} :
    Field.ofKey? key = some f ↔ key = f.key := by
  constructor
  · intro h
    unfold Field.ofKey? at h
    split at h
    · next hkey =>
      cases h
      exact hkey
    split at h
    · next hkey =>
      cases h
      exact hkey
    split at h
    · next hkey =>
      cases h
      exact hkey
    · cases h
  · rintro rfl
    cases f <;> rfl

namespace Reader

/-- The reader behind more bytes. -/
def readOn (r : Reader) (bs : List UInt8) : Except Fault Reader := bs.foldlM feed r

/-- The bytes take the reader from `r` to `s`. -/
def Reads (r : Reader) (bs : List UInt8) (s : Reader) : Prop := bs.foldlM feed r = .ok s

variable {r s t : Reader} {d : Draft} {slot : Slot} {bs cs : List UInt8} {b : UInt8}

theorem ok_bind {α β : Type} (a : α) (f : α → Except Fault β) : (Except.ok a >>= f) = f a := rfl

theorem exists_of_bind_eq_ok {α β : Type} {e : Except Fault α} {f : α → Except Fault β} {y : β}
    (h : e.bind f = .ok y) : ∃ a, e = .ok a ∧ f a = .ok y := by
  cases e with
  | error fault => cases h
  | ok a => exact ⟨a, rfl, h⟩

theorem readOn_cons (r : Reader) (b : UInt8) (bs : List UInt8) :
    r.readOn (b :: bs) = (r.feed b).bind fun s => s.readOn bs := List.foldlM_cons

theorem readOn_single (r : Reader) (b : UInt8) : r.readOn [b] = r.feed b := by
  rw [readOn_cons]
  cases r.feed b <;> rfl

theorem readOn_append (r : Reader) (bs cs : List UInt8) :
    r.readOn (bs ++ cs) = (r.readOn bs).bind fun s => s.readOn cs := List.foldlM_append

theorem Reads.readOn (h : Reads r bs s) (cs : List UInt8) : r.readOn (bs ++ cs) = s.readOn cs := by
  have hread : r.readOn bs = .ok s := h
  rw [readOn_append, hread]
  rfl

theorem Reads.nil (r : Reader) : Reads r [] r := rfl

theorem Reads.append (h : Reads r bs s) (h' : Reads s cs t) : Reads r (bs ++ cs) t :=
  (h.readOn cs).trans h'

theorem Reads.cons (h : r.feed b = .ok s) (h' : Reads s bs t) : Reads r (b :: bs) t := by
  unfold Reads at *
  rw [List.foldlM_cons, h]
  exact h'

theorem Reads.single (h : r.feed b = .ok s) : Reads r [b] s := .cons h (.nil s)

theorem exists_of_reads_append (h : Reads r (bs ++ cs) t) : ∃ s, Reads r bs s ∧ Reads s cs t := by
  have hread : r.readOn (bs ++ cs) = .ok t := h
  rw [readOn_append] at hread
  exact exists_of_bind_eq_ok hread

theorem feed_of_reads_single (h : Reads r [b] s) : r.feed b = .ok s :=
  (readOn_single r b).symm.trans h

theorem exists_of_reads_cons (h : Reads r (b :: bs) t) : ∃ s, r.feed b = .ok s ∧ Reads s bs t := by
  have happ : Reads r ([b] ++ bs) t := h
  obtain ⟨s, hfirst, hrest⟩ := exists_of_reads_append happ
  exact ⟨s, feed_of_reads_single hfirst, hrest⟩

theorem exists_reads_of_decode {now : Instant} {p : List UInt8} {m : Metric}
    (h : decode now p = .ok m) : ∃ r, Reads .start p r ∧ r.finish now = .ok m :=
  exists_of_bind_eq_ok h

/-! ## Texts -/

/-- In the phases `phase` a text is read, at the end of which comes
`settle`. -/
def Hosts (d : Draft) (phase : TextToken → Phase) (settle : List UInt8 → Except Fault Reader) :
    Prop :=
  ∀ t b, (⟨d, phase t⟩ : Reader).feed b = (t.feed b).bind fun
    | .goes t => .ok ⟨d, phase t⟩
    | .closed content => settle content

theorem hosts_text (d : Draft) (slot : Slot) :
    Hosts d (.text slot) (settleText ⟨d, .value slot⟩ slot) := by
  intro t b
  show ((t.feed b).bind fun | .goes t => _ | .closed content => _) = _
  cases t.feed b with
  | error fault => rfl
  | ok step =>
    cases step with
    | goes t => rfl
    | closed content => cases slot <;> rfl

theorem hosts_key (d : Draft) : Hosts d .key (settleKey ⟨d, .firstMember⟩) := by
  intro t b
  show ((t.feed b).bind fun | .goes t => _ | .closed content => _) = _
  cases t.feed b with
  | error fault => rfl
  | ok step => cases step <;> rfl

theorem hosts_skipKey (d : Draft) (within : List Bracket) :
    Hosts d (.skipKey · within) fun _ => .ok ⟨d, .colon (.skipped (.curly :: within))⟩ := by
  intro t b
  show ((t.feed b).bind fun | .goes t => _ | .closed content => _) = _
  cases t.feed b with
  | error fault => rfl
  | ok step => cases step <;> rfl

variable {phase : TextToken → Phase} {settle : List UInt8 → Except Fault Reader}

theorem Hosts.reads (h : Hosts d phase settle) {token token' : TextToken}
    (htoken : token.feedAll bs = some token') : Reads ⟨d, phase token⟩ bs ⟨d, phase token'⟩ := by
  induction bs generalizing token with
  | nil =>
    cases htoken
    exact .nil _
  | cons b bs ih =>
    rw [TextToken.feedAll] at htoken
    split at htoken
    · next next hfeed =>
      refine .cons (s := ⟨d, phase next⟩) ?_ (ih htoken)
      rw [h token b, hfeed]
      rfl
    · cases htoken

theorem Hosts.feed_closing (h : Hosts d phase settle) (strict : Bool) (content : List UInt8) :
    (⟨d, phase ⟨strict, content, .plain⟩⟩ : Reader).feed 0x22 = settle content :=
  h ⟨strict, content, .plain⟩ 0x22

/-! ## Numbers -/

theorem reads_digits {token token' : NumberToken} (h : token.feedAll bs = some token') :
    Reads ⟨d, .number slot token⟩ bs ⟨d, .number slot token'⟩ := by
  induction bs generalizing token with
  | nil =>
    cases h
    exact .nil _
  | cons b bs ih =>
    rw [NumberToken.feedAll] at h
    cases hfeed : token.feed b with
    | goes next =>
      rw [hfeed] at h
      refine .cons (s := ⟨d, .number slot next⟩) ?_ (ih h)
      simp only [feed, hfeed]
      rfl
    | ends =>
      rw [hfeed] at h
      cases h
    | breaks =>
      rw [hfeed] at h
      cases h

theorem start?_bounds {token : NumberToken} (h : NumberToken.start? b = some token) :
    0x2D ≤ b ∧ b ≤ 0x39 := by
  rw [NumberToken.start?] at h
  split at h
  · next hminus =>
    subst hminus
    decide
  split at h
  · next hzero =>
    subst hzero
    decide
  · rw [NumberToken.digit?] at h
    split at h
    · next hdigit => exact ⟨UInt8.le_trans (by decide) hdigit.1, hdigit.2⟩
    · cases h

theorem ne_of_start? {token : NumberToken} (h : NumberToken.start? b = some token) {c : UInt8}
    (hc : c < 0x2D ∨ 0x39 < c) : b ≠ c := by
  obtain ⟨hlow, hhigh⟩ := start?_bounds h
  rintro rfl
  rcases hc with hc | hc
  · exact absurd hlow (UInt8.not_le.mpr hc)
  · exact absurd hhigh (UInt8.not_le.mpr hc)

theorem isBlank_of_start? {token : NumberToken} (h : NumberToken.start? b = some token) :
    isBlank b = false := by
  simp [isBlank, ne_of_start? h (c := 0x20) (by decide), ne_of_start? h (c := 0x09) (by decide),
    ne_of_start? h (c := 0x0A) (by decide), ne_of_start? h (c := 0x0D) (by decide)]

theorem feedValue_number {token : NumberToken} (h : NumberToken.start? b = some token)
    (r : Reader) (slot : Slot) :
    r.feedValue slot b = .ok { r with phase := .number slot token } := by
  rw [feedValue, isBlank_of_start? h, if_neg Bool.false_ne_true,
    if_neg (ne_of_start? h (by decide)), h]
  rfl

theorem reads_number {token : NumberToken} (h : NumberToken.read? bs = some token) :
    Reads ⟨d, .value slot⟩ bs ⟨d, .number slot token⟩ := by
  cases bs with
  | nil => cases h
  | cons b bs =>
    rw [NumberToken.read?] at h
    obtain ⟨first, hstart, hrest⟩ := Option.bind_eq_some_iff.mp h
    exact .cons (feedValue_number hstart _ slot) (reads_digits hrest)

/-- The bytes that can follow a value within an object or an array. -/
def follows (b : UInt8) : Bool :=
  isBlank b || b = 0x2C || b = 0x5D || b = 0x7D

theorem feed_ends {token : NumberToken} (h : token.complete) (hb : follows b) :
    token.feed b = .ends := by
  have hcases : b = 0x20 ∨ b = 0x09 ∨ b = 0x0A ∨ b = 0x0D ∨ b = 0x2C ∨ b = 0x5D ∨ b = 0x7D := by
    simpa [follows, isBlank, or_assoc] using hb
  obtain ⟨negative, mantissa, places, shrinks, power, stage⟩ := token
  rcases hcases with rfl | rfl | rfl | rfl | rfl | rfl | rfl <;> cases stage <;>
    first | rfl | cases h

theorem feed_behind {token : NumberToken} (h : token.complete) (hb : follows b) (slot : Slot) :
    (⟨d, .number slot token⟩ : Reader).feed b
      = (settleNumber ⟨d, .number slot token⟩ slot token).bind fun s => s.feedToken s.phase b := by
  simp only [feed, feed_ends h hb]
  rfl

end Reader

end MetricRelay.Wire
