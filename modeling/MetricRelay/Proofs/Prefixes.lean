import MetricRelay.Proofs.Channels

/-!
# Prefixes and the names they make

A text is what is left of it without its trailing dots, and the dots
(`exists_eq_append_dots`); the first of the two does not change with the
number of the dots (`trimTrailing_append_dots`). So normalizing a prefix
is choosing one of all prefixes that differ in trailing dots only. The
producer puts it before a name to make the routing key, the listener puts
it there again when it finds it in the header, and the two are one name
(`onMessage_headersFor`).
-/

namespace MetricRelay

namespace Text

/-- So many dots. -/
def dots (n : Nat) : String := String.ofList (List.replicate n '.')

theorem dropTrailing_append_replicate (c : Char) (cs : List Char) (n : Nat) :
    dropTrailing c (cs ++ List.replicate n c) = dropTrailing c cs := by
  induction n with
  | zero => rw [List.replicate_zero, List.append_nil]
  | succ n ih =>
    rw [List.replicate_succ', ← List.append_assoc, ← ih]
    exact List.rdropWhile_concat_pos _ _ c (beq_self_eq_true c)

theorem exists_eq_append_replicate (c : Char) (cs : List Char) :
    ∃ n, cs = dropTrailing c cs ++ List.replicate n c := by
  refine ⟨(cs.rtakeWhile (· == c)).length, ?_⟩
  have hdots : cs.rtakeWhile (· == c) = List.replicate (cs.rtakeWhile (· == c)).length c :=
    List.eq_replicate_of_mem fun d hd =>
      beq_iff_eq.mp (List.mem_rtakeWhile_imp (p := (· == c)) hd)
  rw [← hdots]
  exact List.rdropWhile_append_rtakeWhile.symm

theorem trimTrailing_append_dots (s : String) (n : Nat) :
    trimTrailing '.' (s ++ dots n) = trimTrailing '.' s := by
  unfold trimTrailing dots
  rw [String.toList_append, String.toList_ofList, dropTrailing_append_replicate]

theorem exists_eq_append_dots (s : String) : ∃ n, s = trimTrailing '.' s ++ dots n := by
  obtain ⟨n, hn⟩ := exists_eq_append_replicate '.' s.toList
  refine ⟨n, String.toList_inj.mp ?_⟩
  rw [String.toList_append, trimTrailing, dots, String.toList_ofList, String.toList_ofList, ← hn]

theorem not_endsWithChar_trimTrailing (c : Char) (s : String) :
    ¬ endsWithChar (trimTrailing c s) c := by
  rw [← trimTrailing_eq_self_iff, trimTrailing, trimTrailing, String.toList_ofList]
  exact congrArg String.ofList (List.rdropWhile_idempotent _ _)

end Text

namespace Routing

theorem normalize_some (p : String) : normalize (some p)
    = if Text.trimTrailing '.' p = "" then defaultNameSpace else Text.trimTrailing '.' p := rfl

theorem normalize_append_dots (p : String) (n : Nat) :
    normalize (some (p ++ Text.dots n)) = normalize (some p) := by
  rw [normalize_some, normalize_some, Text.trimTrailing_append_dots]

theorem normalized_normalize (given? : Option String) :
    normalize given? ≠ "" ∧ ¬ Text.endsWithChar (normalize given?) '.' := by
  cases given? with
  | none => decide
  | some p =>
    rw [normalize_some]
    split
    · decide
    · next hne => exact ⟨hne, Text.not_endsWithChar_trimTrailing '.' p⟩

/-! ## Names -/

/-- A listener finds the prefix of the producer in the headers, unless
another one is fixed there. -/
theorem get?_headersFor {r : Routing} (hfixed : r.fixedHeaders.get? metricPrefixHeader = none)
    (name : String) : (r.headersFor name).get? metricPrefixHeader = some r.nameSpace := by
  rw [headersFor, Table.get?_insertAll, hfixed, Table.get?_insert_self]
  rfl

/-- A message with the headers of its metric reaches the sink under the
routing key, whatever the listener puts before other names. -/
theorem onMessage_headersFor {σ ε : Type} {r : Routing}
    (hfixed : r.fixedHeaders.get? metricPrefixHeader = none) (l : Listener) (k : Sink σ ε)
    {now : Instant} (s : σ) {payload : List UInt8} {m : Metric}
    (hm : Wire.decode now payload = .ok m) :
    let reply := (Consumer.listener l).onMessage k now s payload (r.headersFor m.name)
    let recorded := k.accept s (.record { m with name := r.key m.name })
    reply.state = recorded.state ∧ reply.answer = recorded.answer.mapError .forward := by
  have hreceived : ((Consumer.listener l).receive (r.headersFor m.name) m).metric
      = { m with name := r.key m.name } := by
    unfold Consumer.receive
    dsimp only
    rw [get?_headersFor hfixed]
    rfl
  unfold Consumer.onMessage
  rw [hm]
  dsimp only
  rw [hreceived]
  exact ⟨rfl, rfl⟩

/-- A normalized prefix is the given one without its trailing dots, or the
default one if only dots were given or nothing. It is not empty and has no
dot at its end, so normalizing it again changes nothing. With one dot and
a name behind it, it is the routing key, and under this name a listener
records what it receives with the headers, unless they fix another
prefix. -/
theorem recorded_under_key :
    (∀ p n, normalize (some (p ++ Text.dots n)) = normalize (some p))
      ∧ (∀ p, ∃ trimmed n, p = trimmed ++ Text.dots n ∧ ¬ Text.endsWithChar trimmed '.'
          ∧ normalize (some p) = if trimmed = "" then "metrics" else trimmed)
      ∧ normalize none = "metrics"
      ∧ (∀ given?, normalize given? ≠ "" ∧ ¬ Text.endsWithChar (normalize given?) '.'
          ∧ normalize (some (normalize given?)) = normalize given?)
      ∧ ∀ exchange given? fixed name,
          let r := make exchange given? fixed
          r.key name = normalize given? ++ "." ++ name
            ∧ (fixed.get? "metric.prefix" = none →
              ∀ (beginning : String) {σ ε : Type} (k : Sink σ ε) now s payload m,
                Wire.decode now payload = .ok m → m.name = name →
                let reply := (Consumer.listener (.make beginning)).onMessage k now s payload
                  (r.headersFor name)
                let recorded := k.accept s (.record ⟨r.key name, m.value, m.observed⟩)
                reply.state = recorded.state
                  ∧ reply.answer = recorded.answer.mapError .forward) := by
  refine ⟨normalize_append_dots, fun p => ?_, rfl, fun given? => ?_, ?_⟩
  · obtain ⟨n, hn⟩ := Text.exists_eq_append_dots p
    exact ⟨_, n, hn, Text.not_endsWithChar_trimTrailing '.' p, rfl⟩
  · obtain ⟨hne, hdot⟩ := normalized_normalize given?
    exact ⟨hne, hdot, normalize_eq_self_iff.mpr ⟨hne, hdot⟩⟩
  · intro exchange given? fixed name r
    refine ⟨rfl, fun hfixed beginning σ ε k now s payload m hm hname => ?_⟩
    subst hname
    exact onMessage_headersFor hfixed (.make beginning) k s hm

/-- A prefix with three dots behind it, other headers that are fixed, and
a listener with a prefix of its own. -/
theorem recorded_under_key_of_dots :
    let fixed : Headers := Table.empty.insert "region" "eu"
    let r := make "metrics" (some "app..node1...") fixed
    let m : Metric := ⟨"counter.hits", 3, ⟨0⟩⟩
    let reply := (Consumer.listener (.make "local")).onMessage (Repository.sink (ε := WriteError))
      ⟨0⟩ .empty (Wire.render m) (r.headersFor "counter.hits")
    r.key "counter.hits" = "app..node1.counter.hits"
      ∧ reply.answer = .ok () ∧ reply.state.names = ["app..node1.counter.hits"] := by
  intro fixed r m reply
  obtain ⟨-, -, -, -, hkey⟩ := recorded_under_key
  obtain ⟨-, hstored⟩ := hkey "metrics" (some "app..node1...") fixed "counter.hits"
  obtain ⟨hstate, hanswer⟩ := hstored rfl "local" (Repository.sink (ε := WriteError)) ⟨0⟩ .empty
    (Wire.render m) m (by decide +kernel) rfl
  refine ⟨by decide, hanswer, ?_⟩
  rw [hstate]
  decide

end Routing

end MetricRelay
