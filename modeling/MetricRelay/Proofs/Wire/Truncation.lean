import MetricRelay.Proofs.Wire.RoundTrip

/-!
# Payloads that are cut off

A reader that has seen the closing bracket takes nothing but blanks, so a
payload that ends with its bracket has no beginning that is a payload. A
payload that was written for a metric passes only unfinished readers
(`passes_render`), so wherever it is cut, also within a character, an
escape or a number, it is refused as one that ends too early
(`truncation_noticed`).
-/

namespace MetricRelay.Wire

namespace Reader

variable {r s : Reader} {bs : List UInt8}

/-- Behind the closing bracket nothing but blanks is read. -/
theorem readOn_closed (d : Draft) (bs : List UInt8) :
    (⟨d, .closed⟩ : Reader).readOn bs
      = if ∀ b ∈ bs, isBlank b then .ok ⟨d, .closed⟩ else .error .malformed := by
  induction bs with
  | nil => exact (if_pos (List.forall_mem_nil _)).symm
  | cons b bs ih =>
    have hfeed : (⟨d, .closed⟩ : Reader).feed b
        = if isBlank b then .ok ⟨d, .closed⟩ else .error .malformed := rfl
    rw [readOn_cons, hfeed]
    by_cases hb : isBlank b
    · rw [if_pos hb, Except.bind, ih]
      simp only [List.forall_mem_cons, hb, true_and]
    · rw [if_neg hb, if_neg fun hblank => hb (hblank b List.mem_cons_self)]
      rfl

theorem isBlank_of_reads_closed (hr : r.phase = .closed) (h : Reads r bs s) :
    ∀ b ∈ bs, isBlank b := by
  obtain ⟨d, phase⟩ := r
  cases hr
  have hread : (⟨d, .closed⟩ : Reader).readOn bs = .ok s := h
  rw [readOn_closed] at hread
  by_contra hblank
  rw [if_neg hblank] at hread
  cases hread

theorem closed_of_finish {now : Instant} {m : Metric} (h : r.finish now = .ok m) :
    r.phase = .closed := by
  obtain ⟨d, phase⟩ := r
  cases phase with
  | closed => rfl
  | _ => cases h

end Reader

open Reader

/-- A payload that begins another is followed by blanks. -/
theorem isBlank_of_decode_append {now now' : Instant} {q ds : List UInt8} {m n : Metric}
    (hq : decode now q = .ok m) (h : decode now' (q ++ ds) = .ok n) : ∀ b ∈ ds, isBlank b := by
  obtain ⟨r, hreads, hfinish⟩ := exists_reads_of_decode hq
  obtain ⟨s, hall, -⟩ := exists_reads_of_decode h
  exact isBlank_of_reads_closed (closed_of_finish hfinish) ((hreads.readOn ds).symm.trans hall)

/-- A payload that does not end with a blank has no beginning that is a
payload too. What is encoded for a metric, or for the change that a delta
is, is moreover refused as cut off wherever it is cut. -/
theorem truncation_noticed :
    (∀ now p m, decode now p = .ok m → (∀ b ∈ p.getLast?, ¬ isBlank b) →
      ∀ q, q <+: p → q ≠ p → ∀ now' n, decode now' q ≠ .ok n)
    ∧ ∀ m : Metric, m.name ≠ "" → m.value.isFinite → m.observed.InRange →
      ∃ p, encode m = .ok p
        ∧ ∀ q, q <+: p → q ≠ p → ∀ now, decode now q = .error .truncated := by
  refine ⟨?_, fun m hname hx ht => ⟨render m, if_pos hx, fun q hq hne now => ?_⟩⟩
  · rintro now _ m h hlast q ⟨ds, rfl⟩ hne now' n hbegun
    have hds : ds ≠ [] := fun hds => hne (by rw [hds, List.append_nil])
    refine hlast (ds.getLast hds) ?_ (isBlank_of_decode_append hbegun h _ (List.getLast_mem hds))
    rw [List.getLast?_append_of_ne_nil _ hds, List.getLast?_eq_some_getLast hds]
    rfl
  · obtain ⟨r, hreads, hr⟩ := (passes_render hname hx ht).unfinished q hq hne
    have hall : readAll q = .ok r := hreads
    unfold decode
    rw [hall]
    exact hr now

/-- Both halves at work: an array, and the payload of a metric whose value
has an exponent. -/
theorem truncation_noticed_of_exponent :
    let p : List UInt8 := [0x5B, 0x22, 0xC3, 0xA9, 0x22, 0x2C, 0x31, 0x2E, 0x35, 0x5D]
    let m : Metric := ⟨"gauge.é", -1.5e-7, .ofMillis (-8)⟩
    decode ⟨0⟩ p = .ok ⟨"é", 1.5, ⟨0⟩⟩
      ∧ (∀ q, q <+: p → q ≠ p → ∀ now n, decode now q ≠ .ok n)
      ∧ ∃ w, encode m = .ok w ∧ ∀ q, q <+: w → q ≠ w → ∀ now, decode now q = .error .truncated := by
  intro p m
  have hdecode : decode ⟨0⟩ p = .ok ⟨"é", 1.5, ⟨0⟩⟩ := by decide
  have hlast : ∀ b ∈ p.getLast?, ¬ isBlank b := by
    rintro _ ⟨⟩
    decide
  obtain ⟨hbegun, hwritten⟩ := truncation_noticed
  exact ⟨hdecode, hbegun ⟨0⟩ p _ hdecode hlast,
    hwritten m (by decide) (by decide) ⟨by decide, by decide⟩⟩

end MetricRelay.Wire
