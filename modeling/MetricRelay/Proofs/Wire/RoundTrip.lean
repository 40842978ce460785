import MetricRelay.Proofs.Wire.NumberText
import MetricRelay.Proofs.Wire.Passing
import MetricRelay.Wire.Writer

/-!
# Payloads are read back

A reader that is given the payload of a metric with a finite value ends
with this metric, but for what the number codec makes of the value
(`decode_render`), and one that is given a `null` in place of the value
stops there (`decode_render_of_not_isFinite`). The
payload is taken apart into its tokens, each of which has a lemma on the
reader before and after it and on those within it, which are not done yet
(`passes_render`).
-/

namespace MetricRelay

namespace Instant.InRange

variable {t : Instant}

theorem fits (ht : t.InRange) : Number.Fits t.millis := by
  obtain ⟨hfirst, hlast⟩ := ht
  unfold firstMillis at hfirst
  unfold lastMillis at hlast
  unfold Number.Fits
  omega

/-- Between the epoch and what can be observed lies only what can be too. -/
theorem ofMillis?_of_between (ht : t.InRange) {k : Int}
    (hk : 0 ≤ k ∧ k ≤ t.millis ∨ t.millis ≤ k ∧ k ≤ 0) : ofMillis? k = some (ofMillis k) := by
  obtain ⟨hfirst, hlast⟩ := ht
  refine if_pos ?_
  unfold firstMillis at *
  unfold lastMillis at *
  omega

end Instant.InRange

namespace Wire

open Number (Layout signedDigits)

namespace Reader

variable {d : Draft}

/-! ## Texts -/

theorem bytes_quoted (s : String) :
    bytes (Text.quoted s) = 0x22 :: bytes (s.toList.flatMap Text.escapeChar) ++ [0x22] := by
  rw [Text.quoted, List.cons_append, bytes_cons_ascii (by decide), bytes_append]
  rfl

/-- A key and its colon. -/
theorem passes_key {f : Field} (hf : d.has f = false) {phase : Phase}
    (hunfinished : Unfinished ⟨d, phase⟩)
    (hphase : (⟨d, phase⟩ : Reader).feed 0x22 = .ok ⟨d, .key (.start true)⟩) :
    Passes ⟨d, phase⟩ (bytes (Text.quoted f.key) ++ [0x3A]) ⟨d, .value (.field .object f)⟩ := by
  have hkey : Field.ofKey? f.key = some f := Field.ofKey?_eq_some_iff.mpr rfl
  have hcontent := (hosts_key d).passes (fun _ _ => rfl) (TextToken.feedAll_quoted f.key)
  have hclose : (⟨d, .key (.holding (Utf8.encode f.key).reverse)⟩ : Reader).feed 0x22
      = .ok ⟨d, .colon (.field .object f)⟩ := by
    refine ((hosts_key d).feed_closing true _).trans ?_
    simp only [settleKey, TextToken.textOf_encode, ok_bind, hkey, hf]
    rfl
  have hcolon : (⟨d, .colon (.field .object f)⟩ : Reader).feed 0x3A
      = .ok ⟨d, .value (.field .object f)⟩ := rfl
  rw [bytes_quoted]
  exact ((Passes.cons hunfinished hphase hcontent).append (.single (fun _ => rfl) hclose)).append
    (.single (fun _ => rfl) hcolon)

/-- The name. -/
theorem passes_name {name : String} (hname : name ≠ "") :
    Passes ⟨d, .value (.field .object .name)⟩ (bytes (Text.quoted name))
      ⟨{ d with name := some name }, .afterMember⟩ := by
  have hopen : (⟨d, .value (.field .object .name)⟩ : Reader).feed 0x22
      = .ok ⟨d, .text (.field .object .name) (.start true)⟩ := rfl
  have hcontent := (hosts_text d (.field .object .name)).passes (fun _ _ => rfl)
    (TextToken.feedAll_quoted name)
  have hclose : (⟨d, .text (.field .object .name) (.holding (Utf8.encode name).reverse)⟩ :
      Reader).feed 0x22 = .ok ⟨{ d with name := some name }, .afterMember⟩ := by
    refine ((hosts_text d _).feed_closing true _).trans ?_
    simp only [settleText, TextToken.textOf_encode, ok_bind, if_neg hname]
    rfl
  rw [bytes_quoted]
  exact (Passes.cons (fun _ => rfl) hopen hcontent).append (.single (fun _ => rfl) hclose)

/-! ## Numbers -/

theorem settleNumber_value {token : NumberToken} (hfinite : token.numeral.scaled.isFinite)
    (r : Reader) :
    r.settleNumber (.field .object .value) token
      = .ok ⟨{ r.draft with value := some token.numeral.scaled }, .afterMember⟩ := by
  simp only [settleNumber, hfinite, if_true]
  rfl

theorem settleNumber_timestamp {token : NumberToken} {n : Int} {t : Instant}
    (h : token.integer? = some n) (hfinite : token.numeral.scaled.isFinite)
    (ht : Instant.ofMillis? n = some t) (r : Reader) :
    r.settleNumber (.field .object .timestamp) token
      = .ok ⟨{ r.draft with timestamp := some t }, .afterMember⟩ := by
  simp only [settleNumber, hfinite, if_true, h, Option.bind_some, ht]
  rfl

/-- The value and the comma behind it. -/
theorem passes_value {x : Float} (hx : x.isFinite) :
    Passes ⟨d, .value (.field .object .value)⟩ (bytes (Layout.wire.characters x) ++ [0x2C])
      ⟨{ d with value := some (reread x) }, .nextMember⟩ := by
  obtain ⟨token, hread, hcomplete, -, hreread, hbrief, hfinite⟩ := NumberToken.read?_characters hx
  rw [← hreread] at hfinite ⊢
  refine passes_number_end hread (fun cs ds t ht hrest _ => ?_) ?_
  · have hsound := NumberToken.sound_of_read? ht
    exact ⟨_, settleNumber_value (NumberToken.isFinite_of_feedAll hsound hrest hbrief hfinite) _⟩
  · rw [feed_behind hcomplete rfl, settleNumber_value hfinite]
    rfl

/-- A timestamp as far as it has been read is one as well. -/
theorem exists_timestamp_of_feedAll {t : Instant} (ht : t.InRange) {cs ds : List UInt8}
    {token begun : NumberToken} (hinteger : token.integer? = some t.millis)
    (hbrief : token.Brief) (hfinite : token.numeral.scaled.isFinite)
    (hbegun : NumberToken.read? cs = some begun) (hrest : begun.feedAll ds = some token)
    (hcomplete : begun.complete) :
    ∃ k, begun.integer? = some k ∧ begun.numeral.scaled.isFinite
      ∧ Instant.ofMillis? k = some (.ofMillis k) := by
  have hsound := NumberToken.sound_of_read? hbegun
  obtain ⟨k, hk, hbetween⟩ :=
    NumberToken.exists_integer_of_feedAll hsound hcomplete hrest hinteger
  exact ⟨k, hk, NumberToken.isFinite_of_feedAll hsound hrest hbrief hfinite,
    ht.ofMillis?_of_between hbetween⟩

/-- The timestamp and the closing bracket behind it. -/
theorem passes_timestamp (hd : d.has .name && d.has .value) {t : Instant} (ht : t.InRange) :
    Passes ⟨d, .value (.field .object .timestamp)⟩ (bytes (signedDigits t.millis) ++ [0x7D])
      ⟨{ d with timestamp := some (.ofMillis t.millis) }, .closed⟩ := by
  obtain ⟨token, hread, hcomplete, hinteger, hbrief, hfinite⟩ :=
    NumberToken.read?_signedDigits ht.fits
  refine passes_number_end hread (fun cs ds u hu hrest hcomplete => ?_) ?_
  · obtain ⟨k, hk, hfinite, hmillis⟩ :=
      exists_timestamp_of_feedAll ht hinteger hbrief hfinite hu hrest hcomplete
    exact ⟨_, settleNumber_timestamp hk hfinite hmillis _⟩
  · have hrest : token.feedAll [] = some token := rfl
    obtain ⟨k, hk, hfinite, hmillis⟩ :=
      exists_timestamp_of_feedAll ht hinteger hbrief hfinite hread hrest hcomplete
    obtain rfl := Option.some.inj (hinteger.symm.trans hk)
    rw [feed_behind hcomplete rfl, settleNumber_timestamp hk hfinite hmillis]
    exact if_pos hd

end Reader

/-! ## Payloads -/

/-- The payload up to its value. -/
def opening (name : String) : List UInt8 :=
  0x7B :: (bytes (Text.quoted "name") ++ [0x3A]) ++ bytes (Text.quoted name)
    ++ 0x2C :: (bytes (Text.quoted "value") ++ [0x3A])

theorem render_eq (m : Metric) :
    render m = opening m.name ++ bytes (numberText m.value)
      ++ 0x2C :: (bytes (Text.quoted "timestamp") ++ [0x3A])
      ++ bytes (signedDigits m.observed.millis) ++ [0x7D] := by
  have hopen : ('\x7b').toNat < 128 := by decide
  have hcolon : (':').toNat < 128 := by decide
  have hcomma : (',').toNat < 128 := by decide
  show bytes (characters m) = _
  simp only [characters, opening, List.cons_append, bytes_append, bytes_cons_ascii hopen,
    bytes_cons_ascii hcolon, bytes_cons_ascii hcomma, List.append_assoc, List.nil_append]
  rfl

open Reader

theorem passes_opening {name : String} (hname : name ≠ "") :
    Passes .start (opening name) ⟨⟨some name, none, none⟩, .value (.field .object .value)⟩ := by
  have hopen : Reader.start.feed 0x7B = .ok ⟨.blank, .firstMember⟩ := rfl
  have hcomma : (⟨⟨some name, none, none⟩, .afterMember⟩ : Reader).feed 0x2C
      = .ok ⟨⟨some name, none, none⟩, .nextMember⟩ := rfl
  have hname := (Passes.cons (fun _ => rfl) hopen (passes_key (f := .name) rfl (fun _ => rfl) rfl)).append
    (passes_name (d := .blank) hname)
  exact hname.append
    (.cons (fun _ => rfl) hcomma (passes_key (f := .value) rfl (fun _ => rfl) rfl))

/-- The payload of a metric is read up to its end, and not to an end
before. -/
theorem passes_render {m : Metric} (hname : m.name ≠ "") (hx : m.value.isFinite)
    (ht : m.observed.InRange) :
    Passes .start (render m)
      ⟨⟨some m.name, some (reread m.value), some (.ofMillis m.observed.millis)⟩, .closed⟩ := by
  have htext : numberText m.value = Layout.wire.characters m.value := if_pos hx
  have hvalue := (passes_opening hname).append (passes_value hx)
  have htimestamp := (hvalue.append (passes_key (f := .timestamp) rfl (fun _ => rfl) rfl)).append
    (passes_timestamp rfl ht)
  rw [render_eq, htext]
  convert htimestamp using 1
  simp only [List.append_assoc, List.cons_append, List.nil_append]
  rfl

/-- What is decoded where a metric was written: its instant is in whole
milliseconds, and its value what the number codec makes of it. -/
def received (m : Metric) : Metric :=
  { m with value := reread m.value, observed := .ofMillis m.observed.millis }

theorem decode_render (now : Instant) {m : Metric} (hname : m.name ≠ "") (hx : m.value.isFinite)
    (ht : m.observed.InRange) : decode now (render m) = .ok (received m) := by
  have hall : readAll (render m) = .ok _ := (passes_render hname hx ht).reads
  unfold decode
  rw [hall]
  rfl

theorem received_of_restored {m : Metric} (h : Restored m.value) :
    received m = { m with observed := .ofMillis m.observed.millis } := by
  rw [received, h]

theorem numberText_inj {x y : Float} (hx : x.isFinite) (hy : y.isFinite)
    (h : bytes (numberText x) = bytes (numberText y)) : x = y := by
  rw [numberText, if_pos hx, numberText, if_pos hy] at h
  obtain ⟨t, ht, -, hvalue, -⟩ := NumberToken.read?_characters hx
  obtain ⟨u, hu, -, hvalue', -⟩ := NumberToken.read?_characters hy
  rw [h, hu] at ht
  obtain rfl := Option.some.inj ht
  rw [← hvalue, hvalue']

/-- A payload without a finite value is refused at its value. -/
theorem decode_render_of_not_isFinite (now : Instant) {m : Metric} (hname : m.name ≠ "")
    (hx : ¬ m.value.isFinite) : decode now (render m) = .error .mistyped := by
  have htext : bytes (numberText m.value) = [0x6E, 0x75, 0x6C, 0x6C] := by
    rw [numberText, if_neg hx]
    rfl
  have hnull : ([0x6E, 0x75, 0x6C, 0x6C] : List UInt8).foldlM Reader.feed
      ⟨⟨some m.name, none, none⟩, .value (.field .object .value)⟩ = .error .mistyped := rfl
  have hopening : (opening m.name).foldlM Reader.feed .start = .ok _ := (passes_opening hname).reads
  have hall : readAll (render m) = .error .mistyped := by
    rw [render_eq, htext, readAll, List.append_assoc, List.append_assoc, List.append_assoc,
      List.foldlM_append, hopening, ok_bind, List.foldlM_append, hnull]
    rfl
  unfold decode
  rw [hall]
  rfl

/-- What a payload can carry, but for the value: a name, and a whole
millisecond that can be observed. -/
structure Portable (m : Metric) : Prop where
  /-- The name is not empty. -/
  named : m.name ≠ ""
  /-- Nothing is lost of the instant. -/
  whole : m.observed = .ofMillis m.observed.millis
  /-- The instant can be observed. -/
  observable : m.observed.InRange

theorem Portable.of_millis {name : String} {x : Float} {t : Int} (hname : name ≠ "")
    (hfirst : Instant.firstMillis ≤ t) (hlast : t ≤ Instant.lastMillis) :
    Portable ⟨name, x, .ofMillis t⟩ := by
  refine ⟨hname, ?_, ?_⟩
  · rw [Instant.millis_ofMillis]
  · unfold Instant.InRange
    rw [Instant.millis_ofMillis]
    exact ⟨hfirst, hlast⟩

/-- A payload belongs to one metric only, whatever the number codec makes of
its value. -/
theorem render_inj {m n : Metric} (hm : Portable m) (hn : Portable n) (hx : m.value.isFinite)
    (hy : n.value.isFinite) (h : render m = render n) : m = n := by
  have hback := decode_render ⟨0⟩ hm.named hx hm.observable
  rw [h, decode_render ⟨0⟩ hn.named hy hn.observable] at hback
  obtain ⟨hname, -, hobserved⟩ := Metric.mk.inj (Except.ok.inj hback)
  rw [← hn.whole, ← hm.whole] at hobserved
  rw [render_eq, render_eq, hname, hobserved] at h
  simp only [List.append_assoc] at h
  have hvalue := numberText_inj hx hy (List.append_cancel_right (List.append_cancel_left h))
  obtain ⟨name, value, observed⟩ := m
  cases hname
  cases hobserved
  cases hvalue
  rfl

theorem encode_eq_ok_iff {m : Metric} {p : List UInt8} :
    encode m = .ok p ↔ m.value.isFinite ∧ render m = p := by
  unfold encode
  split
  · next hx => simp [hx]
  · next hx => simp [hx]

/-- A metric, or the change that a delta is, is encoded just when its
value is finite, which is when its text is read at all. What is encoded is
read back as it was where the number codec gives the value back, and in
any case belongs to one metric only. -/
theorem decode_encode (now : Instant) :
    ∀ m, Portable m →
      ((∃ p, encode m = .ok p) ↔ m.value.isFinite)
        ∧ (m.value.isFinite ↔ ∃ n, decode now (render m) = .ok n)
        ∧ (Restored m.value → ∀ p, encode m = .ok p → decode now p = .ok m)
        ∧ ∀ n, Portable n → ∀ p, encode m = .ok p → encode n = .ok p → m = n := by
  intro m hm
  refine ⟨?_, ⟨?_, ?_⟩, ?_, ?_⟩
  · simp only [encode_eq_ok_iff, exists_and_left, exists_eq', and_true]
  · intro hx
    exact ⟨_, decode_render now hm.named hx hm.observable⟩
  · rintro ⟨n, h⟩
    by_contra hx
    rw [decode_render_of_not_isFinite now hm.named hx] at h
    cases h
  · intro hrestored p hp
    obtain ⟨hx, rfl⟩ := encode_eq_ok_iff.mp hp
    rw [decode_render now hm.named hx hm.observable, received_of_restored hrestored, ← hm.whole]
  · intro n hn p hp hp'
    obtain ⟨hx, rfl⟩ := encode_eq_ok_iff.mp hp
    obtain ⟨hy, heq⟩ := encode_eq_ok_iff.mp hp'
    exact render_inj hm hn hx hy heq.symm

theorem decode_encode_of_escapes :
    let m : Metric := ⟨"counter.\"\\\n\x01é", -0.0, .ofMillis (-1)⟩
    ∃ p, encode m = .ok p ∧ decode ⟨0⟩ p = .ok m := by
  intro m
  have hm : Portable m := .of_millis (by decide) (by decide) (by decide)
  obtain ⟨hencodes, -, hback, -⟩ := decode_encode ⟨0⟩ m hm
  obtain ⟨p, hp⟩ := hencodes.mpr (by decide)
  exact ⟨p, hp, hback (by decide +kernel) p hp⟩

end Wire

end MetricRelay
