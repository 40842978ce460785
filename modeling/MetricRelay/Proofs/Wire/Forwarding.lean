import MetricRelay.Proofs.Wire.RoundTrip
import MetricRelay.Proofs.Wire.Stepping

/-!
# Whatever is decoded can be encoded

A reader takes no part of a metric that could not be written again
(`Draft.Sound`). This holds of every payload, in either form and well
formed or not so far: the parts that have been read only grow, by parts
that can be written (`Draft.Sound.grows`). What is decoded is therefore
fit to be written (`sound_of_decode`), and where the number codec gives its
value back, the payload that is written in turn is decoded as the same
metric and written as the same bytes.
-/

namespace MetricRelay.Wire

/-- Every part that has been read can be written. -/
def Draft.Sound (d : Draft) : Prop := ∀ f c, d.get f = some c → f.Accepts c

theorem Draft.sound_blank : Draft.blank.Sound := by
  intro f c h
  cases f <;> cases h

theorem Draft.Sound.set {d : Draft} (h : d.Sound) {f : Field} {c : f.Content} (hc : f.Accepts c) :
    (d.set f c).Sound := by
  intro g c' hget
  by_cases hg : g = f
  · subst hg
    rw [get_set_self] at hget
    cases hget
    exact hc
  · rw [get_set_of_ne d c hg] at hget
    exact h g c' hget

/-- Parts that can be written stay so when others are added. -/
theorem Draft.Sound.grows {d d' : Draft} (h : d.Sound) (hgrows : d.Grows d') : d'.Sound := by
  induction hgrows with
  | refl => exact h
  | tail _ hadds ih =>
    obtain ⟨f, c, hc, rfl⟩ := hadds
    exact ih.set hc

/-! ## Forwarding -/

theorem finish_eq_ok {r : Reader} {now : Instant} {m : Metric} (h : r.finish now = .ok m) :
    r.draft.metric now = .ok m := by
  obtain ⟨d, phase⟩ := r
  cases phase with
  | closed => exact h
  | _ => cases h

/-- What a payload gives a metric, in whichever form. -/
theorem sound_of_decode {now : Instant} {p : List UInt8} {m : Metric} (h : decode now p = .ok m) :
    m.name ≠ "" ∧ m.value.isFinite
      ∧ (m.observed = now ∨ m.observed.InRange ∧ m.observed = .ofMillis m.observed.millis) := by
  obtain ⟨r, hreads, hfinish⟩ := Reader.exists_reads_of_decode h
  have hsound : r.draft.Sound := Draft.sound_blank.grows (Reader.grows_of_reads hreads)
  obtain ⟨hname, hvalue, hobserved⟩ := Draft.metric_eq_ok_iff.mp (finish_eq_ok hfinish)
  refine ⟨hsound .name _ hname, hsound .value _ hvalue, ?_⟩
  cases ht : r.draft.get .timestamp with
  | none =>
    rw [ht] at hobserved
    exact Or.inl hobserved.symm
  | some t =>
    rw [ht] at hobserved
    have hobserved : t = m.observed := hobserved
    subst hobserved
    exact Or.inr (hsound .timestamp _ ht)

/-- What is decoded can be encoded, is decoded from that as it was but for
parts of a millisecond, if the number codec gives its value back, and
encoded again as the same payload. -/
theorem encode_of_decode {now : Instant} (hnow : now.InRange) {p : List UInt8} {m : Metric}
    (h : decode now p = .ok m) :
    (m.name ≠ "" ∧ m.value.isFinite ∧ m.observed.InRange)
      ∧ ∃ w n, encode m = .ok w ∧ (Restored m.value → ∀ later, decode later w = .ok n)
        ∧ encode n = .ok w ∧ n = { m with observed := .ofMillis m.observed.millis }
        ∧ (m.observed ≠ now → n = m) := by
  obtain ⟨hname, hfinite, hdates⟩ := sound_of_decode h
  have hrange : m.observed.InRange := by
    rcases hdates with heq | ⟨hrange, -⟩
    · rw [heq]
      exact hnow
    · exact hrange
  let n : Metric := { m with observed := .ofMillis m.observed.millis }
  have hm : encode m = .ok (render m) := if_pos hfinite
  have hn : encode n = .ok (render n) := if_pos hfinite
  have hrender : render n = render m := by
    have hmillis : n.observed.millis = m.observed.millis := Instant.millis_ofMillis _
    simp only [render, characters, hmillis, n]
  refine ⟨⟨hname, hfinite, hrange⟩, render m, n, hm, fun hrestored later => ?_, hrender ▸ hn, rfl, ?_⟩
  · rw [decode_render later hname hfinite hrange, received_of_restored hrestored]
  · intro hne
    rcases hdates with heq | ⟨-, hwhole⟩
    · exact absurd heq hne
    · show { m with observed := .ofMillis m.observed.millis } = m
      rw [← hwhole]

/-- An array without a timestamp, its name with an escape and its value with
an exponent. -/
theorem encode_of_decode_of_array :
    let p : List UInt8 := [0x5B, 0x22, 0x5C, 0x6E, 0x22, 0x2C, 0x20, 0x31, 0x65, 0x2D, 0x32, 0x5D]
    let m : Metric := ⟨"\n", 0.01, ⟨1⟩⟩
    decode ⟨1⟩ p = .ok m ∧ ∃ w, encode m = .ok w ∧ decode ⟨2⟩ w = .ok ⟨"\n", 0.01, ⟨0⟩⟩ := by
  intro p m
  have hdecode : decode ⟨1⟩ p = .ok m := by decide
  obtain ⟨-, w, n, hencode, hback, -, hn, -⟩ := encode_of_decode ⟨by decide, by decide⟩ hdecode
  refine ⟨hdecode, w, hencode, ?_⟩
  rw [hback (by decide +kernel) ⟨2⟩, hn]
  rfl

end MetricRelay.Wire
