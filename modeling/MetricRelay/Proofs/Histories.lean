import MetricRelay.Aggregate
import MetricRelay.Proofs.Storing

/-!
# What is stored depends on the writes of each name alone

What a repository holds under a name is the outcome of the writes to
this name, in their order (`find?_foldl_writeBy`): a write acts on its
own cell (`cell`) and leaves the others. Runs that interleave the
writes to different names in different ways therefore fill the same
table, and since tables list their entries in the order of the names,
nothing that is read from them, sums in their order included, can tell
the runs apart.

None of this is due to how floating point numbers are added up, so the
development is about any operation `plus` in place of the addition, with
`writeBy_add` and `aggregatesBy_add` for the addition itself.
-/

namespace MetricRelay

def Write.name : Write → String
  | .record m => m.name
  | .increment d => d.name
  | .reset name _ => name

namespace Repository

/-- What a write leaves in a cell. -/
def cell (plus : Float → Float → Float) (held? : Option Metric) : Write → Option Metric
  | .record m => some m
  | .increment d =>
    match held? with
    | some m => some { m with value := plus m.value d.value, observed := d.observed }
    | none => some d.change
  | .reset _ _ => none

/-- The repository after a write, with `plus` in place of the addition. -/
def writeBy (plus : Float → Float → Float) (r : Repository) (w : Write) : Repository :=
  match cell plus (r.find? w.name) w with
  | some m => ⟨r.stored.insert w.name m⟩
  | none => ⟨r.stored.erase w.name⟩

/-- The writes to a name, in order. -/
def history (name : String) (ws : List Write) : List Write :=
  ws.filter (·.name = name)

variable {plus : Float → Float → Float} {ws ws' : List Write}

theorem writeBy_add (r : Repository) (w : Write) : r.writeBy (· + ·) w = r.write w := by
  cases w with
  | record m => rfl
  | increment d =>
    simp only [writeBy, write, increment, Write.name, cell, find?]
    cases r.stored.get? d.name <;> rfl
  | reset name asked => rfl

theorem find?_writeBy (r : Repository) (w : Write) (name : String) :
    (r.writeBy plus w).find? name
      = if name = w.name then cell plus (r.find? name) w else r.find? name := by
  unfold writeBy
  by_cases h : name = w.name
  · subst h
    rw [if_pos rfl]
    cases hcell : cell plus (r.find? w.name) w with
    | none => exact Table.get?_erase_self r.stored w.name
    | some m => exact Table.get?_insert_self r.stored w.name m
  · rw [if_neg h]
    cases cell plus (r.find? w.name) w with
    | none => exact Table.get?_erase_of_ne h r.stored
    | some m => exact Table.get?_insert_of_ne h r.stored m

/-- Only the writes to a name have a part in what is stored under it. -/
theorem find?_foldl_writeBy (r : Repository) (ws : List Write) (name : String) :
    (ws.foldl (writeBy plus) r).find? name
      = (history name ws).foldl (cell plus) (r.find? name) := by
  induction ws generalizing r with
  | nil => rfl
  | cons w ws ih =>
    rw [List.foldl_cons, ih, find?_writeBy, history, history, List.filter_cons]
    by_cases h : w.name = name
    · rw [if_pos h.symm, if_pos (decide_eq_true h), List.foldl_cons]
    · rw [if_neg (Ne.symm h), if_neg (by simpa using h)]

theorem ext_find? {r r' : Repository} (h : ∀ name, r.find? name = r'.find? name) : r = r' := by
  obtain ⟨stored⟩ := r
  obtain ⟨stored'⟩ := r'
  have hstored : stored = stored' := Table.ext_get? h
  rw [hstored]

theorem foldl_writeBy_eq (h : ∀ name, history name ws = history name ws') :
    ws.foldl (writeBy plus) .empty = ws'.foldl (writeBy plus) .empty := by
  refine ext_find? fun name => ?_
  rw [find?_foldl_writeBy, find?_foldl_writeBy, h]

theorem final_eq_foldl (ε : Type) (r : Repository) (ws : List Write) :
    (sink (ε := ε)).final r ws = ws.foldl (writeBy (· + ·)) r := by
  have hstep : (writeBy (· + ·)) = fun r w => ((sink (ε := ε)).accept r w).state := by
    funext r w
    exact writeBy_add r w
  rw [hstep]
  rfl

end Repository

/-! ## Aggregates -/

namespace Aggregator

/-- The aggregate `m` combined with another metric of its key, with `plus`
in place of the addition. -/
def combineBy (plus : Float → Float → Float) (counts : Bool) (m source : Metric) : Metric :=
  if counts then
    { m with value := plus m.value source.value, observed := m.observed.latest source.observed }
  else combine false m source

/-- The aggregates under their keys, with `plus` in place of the addition. -/
def aggregatesBy (plus : Float → Float → Float) (a : Aggregator) (sources : List Metric) :
    Table Metric :=
  sources.foldl
    (fun aggregates source =>
      match a.pattern.keyFor? source.name with
      | none => aggregates
      | some key =>
        aggregates.insert key (match aggregates.get? key with
          | none => { source with name := a.beginning ++ key }
          | some m => combineBy plus (Family.of? key == some .counter) m source))
    .empty

theorem aggregatesBy_add (a : Aggregator) (sources : List Metric) :
    a.aggregatesBy (· + ·) sources = a.aggregates sources := by
  unfold aggregatesBy aggregates
  congr 1
  funext aggregates source
  cases a.pattern.keyFor? source.name with
  | none => rfl
  | some key =>
    unfold add
    dsimp only
    cases aggregates.get? key with
    | none => rfl
    | some m => cases Family.of? key == some .counter <;> rfl

end Aggregator

namespace Repository

/-- The repositories answer alike, and so do all aggregators over them. -/
structure AnswersAlike (plus : Float → Float → Float) (r r' : Repository) : Prop where
  find? : ∀ name, r.find? name = r'.find? name
  all : r.all = r'.all
  names : r.names = r'.names
  count : r.count = r'.count
  aggregates : ∀ a : Aggregator, a.aggregatesBy plus r.all = a.aggregatesBy plus r'.all

/-- Runs with the same writes to each name, in the same order, leave
repositories that answer alike, whatever the addition is. With the
addition of floating point numbers, these are the repository's and the
aggregators' own answers. -/
theorem answers_alike_of_histories (ws ws' : List Write)
    (h : ∀ name, history name ws = history name ws') :
    (∀ plus, AnswersAlike plus (ws.foldl (writeBy plus) .empty) (ws'.foldl (writeBy plus) .empty))
      ∧ let r := (sink (ε := Empty)).final .empty ws
        let r' := (sink (ε := Empty)).final .empty ws'
        AnswersAlike (· + ·) r r'
          ∧ ∀ a : Aggregator, a.aggregatesBy (· + ·) r.all = a.aggregates r.all
            ∧ a.aggregates r.all = a.aggregates r'.all
            ∧ a.all r.all = a.all r'.all ∧ a.count r.all = a.count r'.all
            ∧ ∀ name, a.find? r.all name = a.find? r'.all name := by
  have halike : ∀ plus, AnswersAlike plus (ws.foldl (writeBy plus) .empty)
      (ws'.foldl (writeBy plus) .empty) := by
    intro plus
    rw [foldl_writeBy_eq h]
    exact ⟨fun _ => rfl, rfl, rfl, rfl, fun _ => rfl⟩
  refine ⟨halike, ?_⟩
  intro r r'
  have hr : r = ws.foldl (writeBy (· + ·)) .empty := final_eq_foldl Empty .empty ws
  have hr' : r' = ws'.foldl (writeBy (· + ·)) .empty := final_eq_foldl Empty .empty ws'
  have hreads := halike (· + ·)
  rw [← hr, ← hr'] at hreads
  refine ⟨hreads, fun a => ⟨a.aggregatesBy_add r.all, ?_⟩⟩
  rw [hreads.all]
  exact ⟨rfl, rfl, rfl, fun _ => rfl⟩

/-- Two counters of one key and a gauge, interleaved in two ways. -/
theorem answers_alike_of_two_interleavings :
    let one (x : Float) (t : Int) : Metric := ⟨"a.b.one.counter.hits", x, ⟨t⟩⟩
    let two (x : Float) (t : Int) : Metric := ⟨"a.b.two.counter.hits", x, ⟨t⟩⟩
    let ws : List Write := [.record (one 0.1 0), .reset "gauge.load" ⟨1⟩,
      .increment ⟨two 0.2 2⟩, .increment ⟨one 0.3 3⟩]
    let ws' : List Write := [.increment ⟨two 0.2 2⟩, .record (one 0.1 0),
      .increment ⟨one 0.3 3⟩, .reset "gauge.load" ⟨1⟩]
    (Aggregator.default.all ((sink (ε := Empty)).final .empty ws).all).1
      = (Aggregator.default.all ((sink (ε := Empty)).final .empty ws').all).1 := by
  intro one two ws ws'
  have h : ∀ name, history name ws = history name ws' := by
    intro name
    by_cases hone : "a.b.one.counter.hits" = name
    · subst hone
      rfl
    by_cases htwo : "a.b.two.counter.hits" = name
    · subst htwo
      rfl
    by_cases hload : "gauge.load" = name
    · subst hload
      rfl
    simp [history, ws, ws', Write.name, Delta.name, one, two, hone, htwo, hload]
  obtain ⟨-, -, hreads⟩ := answers_alike_of_histories ws ws' h
  obtain ⟨-, -, hall, -⟩ := hreads .default
  rw [hall]

end Repository

end MetricRelay
