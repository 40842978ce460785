import MetricRelay.Proofs.Wire.Stepping
import MetricRelay.Proofs.Wire.Truncation

/-!
# Payloads are judged from left to right

A payload is refused where its fault stands, whatever comes behind. Bytes
that have not met a fault yet leave a reader that asks for more, or one
behind the end, and there the metric is complete (`complete_of_reads`):
none is found to be missing later on. Only a number is judged by what
follows it, since it has no end of its own.
-/

namespace MetricRelay.Wire

namespace Reader

variable {r : Reader}

theorem unfinished_of_isOpen (h : r.phase.isOpen) : r.Unfinished := by
  intro now
  obtain ⟨d, phase⟩ := r
  cases phase with
  | number slot token => cases h
  | closed => cases h
  | _ => rfl

theorem exists_finish_of_complete (hr : r.phase = .closed) (h : r.draft.Complete)
    (now : Instant) : ∃ m, r.finish now = .ok m := by
  obtain ⟨⟨name, value, timestamp⟩, phase⟩ := r
  cases hr
  obtain ⟨hname, hvalue⟩ := h
  obtain ⟨name, rfl⟩ := Option.isSome_iff_exists.mp hname
  obtain ⟨value, rfl⟩ := Option.isSome_iff_exists.mp hvalue
  exact ⟨_, rfl⟩

/-- Bytes that have met no fault and do not end within a number may only be
too few. -/
theorem unfinished_or_finish {p : List UInt8} (hp : ∀ b ∈ p.getLast?, ¬ NumberToken.isPart b)
    (h : Reads .start p r) : r.Unfinished ∨ ∀ now, ∃ m, r.finish now = .ok m := by
  cases hphase : r.phase with
  | number slot token =>
    obtain ⟨b, hb, hpart⟩ := isPart_of_reads h hphase
    exact absurd hpart (hp b hb)
  | closed =>
    have hstart : Reader.start.phase = .closed → Reader.start.draft.Complete := by
      rintro ⟨⟩
    have hcomplete : r.draft.Complete := complete_of_reads hstart h hphase
    exact Or.inr (exists_finish_of_complete hphase hcomplete)
  | _ => exact Or.inl (unfinished_of_isOpen (by rw [hphase]; rfl))

end Reader

open Reader

variable {p : List UInt8} {now : Instant}

/-- A fault other than an early end is met by the reader itself. -/
theorem readAll_of_decode_eq_error (hp : ∀ b ∈ p.getLast?, ¬ NumberToken.isPart b)
    {fault : Fault} (h : decode now p = .error fault) (hfault : fault ≠ .truncated) :
    readAll p = .error fault := by
  unfold decode at h
  cases hr : readAll p with
  | error e =>
    rw [hr] at h
    cases h
    rfl
  | ok r =>
    rw [hr, ok_bind] at h
    rcases unfinished_or_finish hp hr with hunfinished | hfinish
    · cases h.symm.trans (hunfinished now)
      exact absurd rfl hfault
    · obtain ⟨m, hm⟩ := hfinish now
      cases h.symm.trans hm

theorem decode_append_of_readAll {fault : Fault} (h : readAll p = .error fault)
    (s : List UInt8) : decode now (p ++ s) = .error fault := by
  have hread : Reader.start.readOn p = .error fault := h
  have hall : readAll (p ++ s) = .error fault := by
    show Reader.start.readOn (p ++ s) = _
    rw [readOn_append, hread]
    rfl
  unfold decode
  rw [hall]
  rfl

theorem decode_append_of_eq_ok {m : Metric} (h : decode now p = .ok m) (s : List UInt8) :
    decode now (p ++ s) = if ∀ b ∈ s, isBlank b then .ok m else .error .malformed := by
  obtain ⟨⟨d, phase⟩, hreads, hfinish⟩ := exists_reads_of_decode h
  cases closed_of_finish hfinish
  have hall : readAll (p ++ s)
      = if ∀ b ∈ s, isBlank b then .ok ⟨d, .closed⟩ else .error .malformed :=
    (hreads.readOn s).trans (readOn_closed d s)
  unfold decode
  rw [hall]
  split
  · exact hfinish
  · rfl

/-- What is decoded from bytes that do not end within a number stands,
whatever comes behind them: a fault other than an early end remains, and a
metric remains just behind blanks. -/
theorem decode_append (hp : ∀ b ∈ p.getLast?, ¬ NumberToken.isPart b) (now : Instant)
    (s : List UInt8) :
    (∀ fault, decode now p = .error fault → fault ≠ .truncated →
      ∀ later, decode later (p ++ s) = .error fault)
    ∧ ∀ m, decode now p = .ok m →
      decode now (p ++ s) = if ∀ b ∈ s, isBlank b then .ok m else .error .malformed := by
  refine ⟨fun fault h hfault later => ?_, fun m h => decode_append_of_eq_ok h s⟩
  exact decode_append_of_readAll (readAll_of_decode_eq_error hp h hfault) s

/-- An array, and an object that has a key twice. -/
theorem decode_append_of_repeated_key :
    let p : List UInt8 := [0x5B, 0x22, 0x61, 0x22, 0x2C, 0x31, 0x5D]
    let q : List UInt8 :=
      [0x7B, 0x22, 0x6E, 0x61, 0x6D, 0x65, 0x22, 0x3A, 0x22, 0x61, 0x22, 0x2C,
        0x22, 0x6E, 0x61, 0x6D, 0x65, 0x22]
    decode ⟨0⟩ (p ++ [0x0A, 0x20]) = .ok ⟨"a", 1, ⟨0⟩⟩
      ∧ decode ⟨0⟩ (p ++ [0x2C]) = .error .malformed
      ∧ ∀ s later, decode later (q ++ s) = .error .mistyped := by
  intro p q
  have hp : ∀ b ∈ p.getLast?, ¬ NumberToken.isPart b := by
    rintro _ ⟨⟩
    decide
  have hq : ∀ b ∈ q.getLast?, ¬ NumberToken.isPart b := by
    rintro _ ⟨⟩
    decide
  have hdecode : decode ⟨0⟩ p = .ok ⟨"a", 1, ⟨0⟩⟩ := by decide
  have hrepeated : decode ⟨0⟩ q = .error .mistyped := by decide +kernel
  refine ⟨?_, ?_, fun s => (decode_append hq ⟨0⟩ s).1 _ hrepeated (by decide)⟩
  · exact ((decode_append hp ⟨0⟩ [0x0A, 0x20]).2 _ hdecode).trans (if_pos (by simp [isBlank]))
  · exact ((decode_append hp ⟨0⟩ [0x2C]).2 _ hdecode).trans (if_neg (by simp [isBlank]))

/-- A number may be another with one byte more. -/
example :
    decode ⟨0⟩ [0x31] = .error .mistyped ∧ decode ⟨0⟩ [0x31, 0x65] = .error .truncated := by
  decide

end MetricRelay.Wire
