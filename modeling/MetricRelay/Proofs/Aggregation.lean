import MetricRelay.Proofs.Delivery
import MetricRelay.Proofs.Grouping
import MetricRelay.Proofs.Storing

/-!
# Aggregates of what several producers publish

Brokers with prefixes of three segments publish to one listener, and the
default aggregator takes the three segments off again. A stored name is a
producer's prefix, a dot and the name that it published, in one way only
(`stored_inj`); so what is stored under it is the last message of that
producer and name (`find?_gathered`), and the metrics with one key are the
last messages of that name, one of each producer that published it
(`group_eq_lastMessages`).
-/

namespace MetricRelay

namespace Pipeline

/-! ## What is published -/

/-- Brokers that a listener tells apart by the first three segments of
the names that it stores. -/
structure Distinguished (bs : List Broker) : Prop where
  headers : ∀ b ∈ bs, b.addHeaders
  unfixed : ∀ b ∈ bs, b.routing.fixedHeaders.get? "metric.prefix" = none
  three : ∀ b ∈ bs, (Text.segments b.routing.nameSpace).length = 3
  distinct : (bs.map (·.routing.nameSpace)).Nodup

/-- The metric that a step puts into a message of a broker. -/
def message? (bs : List Broker) (producer : Nat) : Step → Option Metric
  | .write i w =>
    if i = producer then
      bs[i]?.bind fun b => ((Producer.broker b).accepts? w).map carried
    else none
  | .deliver _ => none

/-- The metrics that a broker's messages carry in a run, in order. -/
def messages (bs : List Broker) (steps : List Step) (producer : Nat) : List Metric :=
  steps.filterMap (message? bs producer)

/-- The last message of a name that a broker has published in a run. -/
def lastMessage? (bs : List Broker) (steps : List Step) (producer : Nat) (name : String) :
    Option Metric :=
  ((messages bs steps producer).filter (·.name = name)).getLast?

/-- The last messages of a name, one of each broker that published it,
under the names that they are stored under and in the order of these. -/
def lastMessages (bs : List Broker) (steps : List Step) (name : String) : List Metric :=
  (bs.zipIdx.filterMap fun (b, producer) =>
    (lastMessage? bs steps producer name).map
      (Metric.within (b.routing.nameSpace ++ "."))).insertionSort
    fun m n => m.name ≤ n.name

/-- What the listener has stored of the messages of a run. -/
def gathered (bs : List Broker) (l : Listener) (steps : List Step) : Repository :=
  recorded (.listener l) (accepted (bs.map .broker) steps)

variable {bs : List Broker} {b : Broker} {l : Listener} {steps : List Step} {producer : Nat}
  {name : String} {m : Metric}

/-! ## Stored names -/

theorem Distinguished.nameSpace_eq (hbs : Distinguished bs) (hb : b ∈ bs) (l : Listener) :
    (Producer.broker b).nameSpace (.listener l) = b.routing.nameSpace ++ "." := by
  rw [Producer.nameSpace, Producer.header?, if_pos (hbs.headers b hb), hbs.unfixed b hb]
  rfl

/-- A stored name tells the producer and the name that it published. -/
theorem Distinguished.stored_inj (hbs : Distinguished bs) {i j : Nat} {b c : Broker}
    (hi : bs[i]? = some b) (hj : bs[j]? = some c) {n k : String} :
    b.routing.nameSpace ++ "." ++ n = c.routing.nameSpace ++ "." ++ k ↔ i = j ∧ n = k := by
  have hb := hbs.three b (List.mem_of_getElem? hi)
  have hc := hbs.three c (List.mem_of_getElem? hj)
  rw [Text.append_dot_inj (hb.trans hc.symm)]
  refine and_congr_left fun _ => ?_
  constructor
  · intro heq
    have hlt : i < (bs.map (·.routing.nameSpace)).length := by
      rw [List.length_map]
      exact (List.getElem?_eq_some_iff.mp hi).1
    refine (List.getElem?_inj hlt hbs.distinct).mp ?_
    rw [List.getElem?_map, List.getElem?_map, hi, hj, Option.map_some, Option.map_some, heq]
  · rintro rfl
    rw [Option.some.inj (hi.symm.trans hj)]

theorem Distinguished.keyFor?_stored (hbs : Distinguished bs) (hb : bs[producer]? = some b)
    (hname : name ≠ "") :
    Aggregator.default.pattern.keyFor? (b.routing.nameSpace ++ "." ++ name) = some name :=
  KeyPattern.keyFor?_default (hbs.three b (List.mem_of_getElem? hb)) hname

theorem Distinguished.relayed_broker (hbs : Distinguished bs) (hb : b ∈ bs) (l : Listener)
    (m : Metric) :
    relayed (.listener l) (.broker b, m) = (carried m).within (b.routing.nameSpace ++ ".") := by
  rw [relayed, hbs.nameSpace_eq hb]

/-- Of what a step has the listener record, a stored name picks what its
producer published under its name. -/
theorem Distinguished.filter_relayed_step (hbs : Distinguished bs) (hb : bs[producer]? = some b)
    (l : Listener) (name : String) (st : Step) :
    ((accepts? (bs.map .broker) st).map (relayed (.listener l))).filter
        (·.name = b.routing.nameSpace ++ "." ++ name)
      = ((message? bs producer st).filter (·.name = name)).map
          (Metric.within (b.routing.nameSpace ++ ".")) := by
  cases st with
  | deliver clock => rfl
  | write i w =>
    rw [accepts?, message?, List.getElem?_map]
    cases hi : bs[i]? with
    | none =>
      rw [Option.bind_none]
      split <;> rfl
    | some c =>
      rw [Option.map_some, Option.bind_some, Option.bind_some]
      cases hw : (Producer.broker c).accepts? w with
      | none => split <;> rfl
      | some m =>
        have hrelayed := hbs.relayed_broker (List.mem_of_getElem? hi) l m
        have hiff : (relayed (.listener l) (.broker c, m)).name
            = b.routing.nameSpace ++ "." ++ name ↔ i = producer ∧ m.name = name := by
          rw [hrelayed]
          exact hbs.stored_inj hi hb
        rw [Option.map_some, Option.map_some, Option.map_some, Option.filter_some]
        simp only [decide_eq_true_eq, hiff]
        by_cases h : i = producer
        · obtain rfl := h
          obtain rfl := Option.some.inj (hi.symm.trans hb)
          have hcarried : (carried m).name = m.name := rfl
          rw [if_pos rfl, Option.filter_some, hrelayed]
          simp only [decide_eq_true_eq, hcarried, true_and]
          split <;> rfl
        · -- the stored name is another producer's, whatever was published
          rw [if_neg h, if_neg fun hboth => h hboth.1]
          rfl

theorem Distinguished.filter_relayed (hbs : Distinguished bs) (hb : bs[producer]? = some b)
    (l : Listener) (steps : List Step) (name : String) :
    ((accepted (bs.map .broker) steps).map (relayed (.listener l))).filter
        (·.name = b.routing.nameSpace ++ "." ++ name)
      = ((messages bs steps producer).filter (·.name = name)).map
          (Metric.within (b.routing.nameSpace ++ ".")) := by
  unfold accepted messages
  rw [List.map_filterMap, List.filter_filterMap, List.filter_filterMap, List.map_filterMap]
  exact List.filterMap_congr fun st _ => hbs.filter_relayed_step hb l name st

/-- What is stored under a producer's prefix and a name is the last
message of the two. -/
theorem Distinguished.find?_gathered (hbs : Distinguished bs) (hb : bs[producer]? = some b)
    (l : Listener) (steps : List Step) (name : String) :
    (gathered bs l steps).find? (b.routing.nameSpace ++ "." ++ name)
      = (lastMessage? bs steps producer name).map
          (Metric.within (b.routing.nameSpace ++ ".")) := by
  rw [gathered, recorded, Repository.find?_foldl_record, hbs.filter_relayed hb,
    List.getLast?_map]
  rfl

theorem keyed_gathered (bs : List Broker) (l : Listener) (steps : List Step) :
    (gathered bs l steps).Keyed :=
  Repository.keyed_foldl_record _

/-- Every stored name is a producer's prefix, a dot and a name that is
not empty. -/
theorem Distinguished.exists_of_find? (hbs : Distinguished bs)
    (h : ∀ st ∈ steps, st.Sound) {stored : String}
    (hm : (gathered bs l steps).find? stored = some m) :
    ∃ (producer : Nat) (b : Broker) (name : String), bs[producer]? = some b ∧ name ≠ ""
      ∧ stored = b.routing.nameSpace ++ "." ++ name := by
  rw [gathered, recorded, Repository.find?_foldl_record] at hm
  obtain ⟨hmem, hname⟩ := List.mem_filter.mp (List.mem_of_getLast? hm)
  obtain ⟨⟨p, n⟩, ha, rfl⟩ := List.mem_map.mp hmem
  obtain ⟨st, hst, haccepts⟩ := List.mem_filterMap.mp ha
  cases st with
  | deliver clock => cases haccepts
  | write i w =>
    obtain ⟨q, hq, hn⟩ := Option.bind_eq_some_iff.mp haccepts
    obtain ⟨k, hk, heq⟩ := Option.map_eq_some_iff.mp hn
    cases heq
    rw [List.getElem?_map] at hq
    obtain ⟨b, hb, rfl⟩ := Option.map_eq_some_iff.mp hq
    refine ⟨i, b, n.name, hb, (Sound.readable (h _ hst) hk).named, ?_⟩
    rw [← of_decide_eq_true hname, hbs.relayed_broker (List.mem_of_getElem? hb)]
    rfl

/-! ## The last messages of a name -/

theorem mem_lastMessages :
    m ∈ lastMessages bs steps name ↔ ∃ (producer : Nat) (b : Broker), bs[producer]? = some b
      ∧ ∃ n, lastMessage? bs steps producer name = some n
        ∧ m = n.within (b.routing.nameSpace ++ ".") := by
  rw [lastMessages, List.mem_insertionSort, List.mem_filterMap]
  constructor
  · rintro ⟨⟨b, producer⟩, hb, hm⟩
    obtain ⟨n, hn, rfl⟩ := Option.map_eq_some_iff.mp hm
    exact ⟨producer, b, List.mem_zipIdx_iff_getElem?.mp hb, n, hn, rfl⟩
  · rintro ⟨producer, b, hb, n, hn, rfl⟩
    refine ⟨(b, producer), List.mem_zipIdx_iff_getElem?.mpr hb, ?_⟩
    exact Option.map_eq_some_iff.mpr ⟨n, hn, rfl⟩

theorem name_of_lastMessage? (h : lastMessage? bs steps producer name = some m) :
    m.name = name :=
  of_decide_eq_true (List.mem_filter.mp (List.mem_of_getLast? h)).2

theorem lastMessage?_isSome :
    (lastMessage? bs steps producer name).isSome
      ↔ ∃ m ∈ messages bs steps producer, m.name = name := by
  rw [lastMessage?, List.getLast?_isSome]
  constructor
  · intro h
    obtain ⟨m, hm⟩ := List.exists_mem_of_ne_nil _ h
    obtain ⟨hmem, hname⟩ := List.mem_filter.mp hm
    exact ⟨m, hmem, of_decide_eq_true hname⟩
  · rintro ⟨m, hm, hname⟩
    exact List.ne_nil_of_mem (List.mem_filter.mpr ⟨hm, decide_eq_true hname⟩)

/-- The last messages stand in the order of their stored names, and no
two have the same one. -/
theorem Distinguished.pairwise_lastMessages (hbs : Distinguished bs) (steps : List Step)
    (name : String) : (lastMessages bs steps name).Pairwise fun m n => m.name < n.name := by
  have htotal : Std.Total fun m n : Metric => m.name ≤ n.name :=
    ⟨fun m n => String.le_total m.name n.name⟩
  have htrans : IsTrans Metric fun m n => m.name ≤ n.name :=
    ⟨fun _ _ _ => String.le_trans⟩
  have hle : (lastMessages bs steps name).Pairwise fun m n => m.name ≤ n.name :=
    List.pairwise_insertionSort _ _
  have hne : (lastMessages bs steps name).Pairwise fun m n => m.name ≠ n.name := by
    refine ((List.perm_insertionSort _ _).pairwise_iff fun h => h.symm).mpr ?_
    rw [List.pairwise_filterMap, List.pairwise_iff_getElem]
    intro i j hi hj hij m hm n hn heq
    rw [List.getElem_zipIdx] at hm hn
    rw [List.length_zipIdx] at hi hj
    obtain ⟨m, hm, rfl⟩ := Option.map_eq_some_iff.mp hm
    obtain ⟨n, hn, rfl⟩ := Option.map_eq_some_iff.mp hn
    have hij' := ((hbs.stored_inj (List.getElem?_eq_getElem hi) (List.getElem?_eq_getElem hj)).mp
      heq).1
    omega
  refine (hle.and hne).imp fun h => String.not_le.mp fun hle' => ?_
  exact h.2 (String.le_antisymm h.1 hle')

theorem exists_of_mem_messages (hm : m ∈ messages bs steps producer) :
    ∃ (b : Broker) (w : Write) (n : Metric), bs[producer]? = some b ∧ .write producer w ∈ steps
      ∧ (Producer.broker b).accepts? w = some n ∧ carried n = m := by
  obtain ⟨st, hst, heq⟩ := List.mem_filterMap.mp hm
  cases st with
  | deliver clock => cases heq
  | write i w =>
    rw [message?] at heq
    split at heq
    · next hi =>
      subst hi
      obtain ⟨b, hb, hw⟩ := Option.bind_eq_some_iff.mp heq
      obtain ⟨n, hn, rfl⟩ := Option.map_eq_some_iff.mp hw
      exact ⟨b, w, n, hb, hst, hn, rfl⟩
    · cases heq

theorem name_of_mem_messages (h : ∀ st ∈ steps, st.Sound)
    (hm : m ∈ messages bs steps producer) : m.name ≠ "" := by
  obtain ⟨b, w, n, -, hw, hn, rfl⟩ := exists_of_mem_messages hm
  exact (Sound.readable (h _ hw) hn).named

/-- The stored metrics with one key are the last messages of a name. -/
theorem Distinguished.group_eq_lastMessages (hbs : Distinguished bs)
    (h : ∀ st ∈ steps, st.Sound) (l : Listener) (name : String) :
    Aggregator.default.group name (gathered bs l steps).all = lastMessages bs steps name := by
  have hkeyed := keyed_gathered bs l steps
  refine Table.eq_of_ascending Metric.name (hkeyed.pairwise_all.filter _)
    (hbs.pairwise_lastMessages steps name) fun m => ?_
  rw [Aggregator.group, List.mem_filter, mem_lastMessages]
  constructor
  · rintro ⟨hm, hkey⟩
    have hfind := hkeyed.mem_all_iff.mp hm
    obtain ⟨producer, b, key, hb, hne, hstored⟩ := hbs.exists_of_find? h hfind
    rw [hstored, hbs.keyFor?_stored hb hne, decide_eq_true_eq, Option.some.injEq] at hkey
    subst hkey
    rw [hstored, hbs.find?_gathered hb] at hfind
    obtain ⟨n, hn, heq⟩ := Option.map_eq_some_iff.mp hfind
    exact ⟨producer, b, hb, n, hn, heq.symm⟩
  · rintro ⟨producer, b, hb, n, hn, rfl⟩
    have hname := name_of_lastMessage? hn
    have hne : name ≠ "" := by
      rw [← hname]
      exact name_of_mem_messages h (List.mem_filter.mp (List.mem_of_getLast? hn)).1
    have hstored : (n.within (b.routing.nameSpace ++ ".")).name
        = b.routing.nameSpace ++ "." ++ name := by
      rw [← hname]
      rfl
    refine ⟨hkeyed.mem_all_iff.mpr ?_, decide_eq_true ?_⟩
    · rw [hstored]
      refine (hbs.find?_gathered hb l steps name).trans ?_
      rw [hn, Option.map_some]
    · rw [hstored]
      exact hbs.keyFor?_stored hb hne

theorem lastMessages_ne_nil :
    lastMessages bs steps name ≠ []
      ↔ ∃ producer, ∃ m ∈ messages bs steps producer, m.name = name := by
  constructor
  · intro hne
    obtain ⟨m, hm⟩ := List.exists_mem_of_ne_nil _ hne
    obtain ⟨producer, b, -, n, hn, -⟩ := mem_lastMessages.mp hm
    exact ⟨producer, lastMessage?_isSome.mp (Option.isSome_iff_exists.mpr ⟨n, hn⟩)⟩
  · rintro ⟨producer, hpublished⟩
    obtain ⟨n, hn⟩ := Option.isSome_iff_exists.mp (lastMessage?_isSome.mpr hpublished)
    obtain ⟨m, hm, -⟩ := hpublished
    obtain ⟨b, w, k, hb, -⟩ := exists_of_mem_messages hm
    exact List.ne_nil_of_mem (mem_lastMessages.mpr ⟨producer, b, hb, n, hn, rfl⟩)

/-! ## Stored names -/

/-- The names that are stored do not depend on what the number codec makes
of the values. -/
theorem exists_name_stored_iff (c : Consumer) (as : List (Producer × Metric)) (name : String) :
    (∃ m ∈ (stored c as).all, m.name = name) ↔ ∃ m ∈ (recorded c as).all, m.name = name := by
  rw [stored, recorded, (Repository.keyed_foldl_record _).exists_mem_all_iff,
    (Repository.keyed_foldl_record _).exists_mem_all_iff, Repository.isSome_find?_foldl_record,
    Repository.isSome_find?_foldl_record]
  simp only [List.mem_map, exists_exists_and_eq_and]
  rfl

/-! ## Aggregates -/

theorem Distinguished.trail_eq_none (hbs : Distinguished bs) (h : ∀ st ∈ steps, st.Sound)
    (l : Listener) {sources : List Metric}
    (hsources : ∀ m ∈ sources, ∃ n ∈ (gathered bs l steps).all, n.name = m.name) :
    Aggregator.default.trail sources = .none := by
  have hkeys : ∀ m ∈ sources, ¬ (Aggregator.default.pattern.keyFor? m.name).isNone := by
    intro m hm
    obtain ⟨n, hn, hname⟩ := hsources m hm
    have hfind := (keyed_gathered bs l steps).mem_all_iff.mp hn
    obtain ⟨producer, b, key, hb, hne, hstored⟩ := hbs.exists_of_find? h hfind
    rw [← hname, hstored, hbs.keyFor?_stored hb hne]
    exact Bool.false_ne_true
  rw [Aggregator.trail, List.filter_eq_nil_iff.mpr hkeys]
  rfl

/-- The aggregates of what brokers with prefixes of three segments have
published: there is one for each published name and no other, no stored
name is passed over, and, where the number codec gives the values back, an
aggregate combines the last messages of its name, those of a counter by
adding them up in the order of the stored names, others by taking the
latest, under the least stored name where several are latest. -/
theorem aggregates_last_messages (bs : List Broker) (hbs : Distinguished bs) (l : Listener)
    (steps : List Step) (h : ∀ st ∈ steps, st.Sound)
    (clock : Nat → Instant) :
    let stored := (run (.listener l) (bs.map .broker) (steps ++ [.deliver clock])).2.content.all
    (∀ x, x ∈ (Aggregator.default.all stored).1
        ↔ ∃ name, (Aggregator.default.find? stored ("aggregate." ++ name)).1 = some x)
      ∧ (Aggregator.default.all stored).2 = .none
      ∧ (∀ name, (Aggregator.default.find? stored ("aggregate." ++ name)).1.isSome
        ↔ ∃ producer, ∃ m ∈ messages bs steps producer, m.name = name)
      ∧ ((∀ a ∈ accepted (bs.map .broker) steps, Wire.Restored a.2.value) →
        ∀ name x, (Aggregator.default.find? stored ("aggregate." ++ name)).1 = some x →
          x.name = "aggregate." ++ name ∧
            if Text.startsWith name "counter." then Aggregator.IsSum (lastMessages bs steps name) x
            else Aggregator.IsLatest (lastMessages bs steps name) x) := by
  intro stored
  have hcontent := (inTransit_run_deliver (.listener l) (bs.map .broker) h clock).content
  have hnames : ∀ name, (∃ m ∈ stored, m.name = name)
      ↔ ∃ m ∈ (gathered bs l steps).all, m.name = name := by
    rw [show stored = _ from congrArg Repository.all hcontent]
    exact exists_name_stored_iff _ _
  have hfind : ∀ name, (Aggregator.default.find? stored ("aggregate." ++ name)).1
      = Aggregator.default.combined? name (Aggregator.default.group name stored) := fun name =>
    congrArg Prod.fst (Aggregator.find?_beginning .default stored name)
  refine ⟨fun x => Aggregator.mem_all_iff, ?_, ?_, ?_⟩
  · exact hbs.trail_eq_none h l fun m hm => (hnames m.name).mp ⟨m, hm, rfl⟩
  · intro name
    rw [hfind, ← lastMessages_ne_nil, ← hbs.group_eq_lastMessages h l,
      ← Aggregator.group_ne_nil_congr _ name hnames, ← Option.ne_none_iff_isSome]
    exact not_congr Aggregator.combined?_eq_none_iff
  · intro hrestored name x hx
    have hstored : stored = (gathered bs l steps).all :=
      congrArg Repository.all (hcontent.trans (stored_eq_recorded _ hrestored))
    rw [hfind, hstored, hbs.group_eq_lastMessages h l] at hx
    obtain ⟨hname, hreading⟩ := Aggregator.combines_of_combined? hx
    exact ⟨hname, hreading⟩

theorem aggregates_last_messages_of_two_nodes :
    let node (name : String) : Broker :=
      ⟨.make "metrics" (some ("metrics.app." ++ name)) .empty, true⟩
    let bs := [node "node2", node "node1"]
    let steps : List Step :=
      [.write 0 (.record ⟨"counter.requests", 5, ⟨3000000⟩⟩),
        .write 1 (.record ⟨"counter.requests", 10, ⟨0⟩⟩), .deliver fun _ => ⟨0⟩,
        .write 1 (.increment ⟨⟨"counter.requests", 2, ⟨1000000⟩⟩⟩)]
    let stored := (run (.listener .plain) (bs.map .broker)
      (steps ++ [.deliver fun _ => ⟨0⟩])).2.content.all
    ∃ x, (Aggregator.default.find? stored "aggregate.counter.requests").1 = some x
      ∧ x.value = 7 ∧ x.observed = ⟨3000000⟩ := by
  intro node bs steps stored
  have hbs : Distinguished bs := by
    refine ⟨?_, ?_, ?_, ?_⟩
    · simp [bs, node]
    · simp [bs, node, Routing.make]
    · decide +kernel
    · decide +kernel
  have hlast : lastMessages bs steps "counter.requests"
      = [⟨"metrics.app.node1.counter.requests", 2, ⟨1000000⟩⟩,
          ⟨"metrics.app.node2.counter.requests", 5, ⟨3000000⟩⟩] := by
    decide +kernel
  have hsound : ∀ st ∈ steps, st.Sound := by decide
  obtain ⟨-, -, hfound, hcombines⟩ :=
    aggregates_last_messages bs hbs .plain steps hsound fun _ => ⟨0⟩
  have hpublished : ∃ producer, ∃ m ∈ messages bs steps producer, m.name = "counter.requests" :=
    ⟨0, ⟨"counter.requests", 5, ⟨3000000⟩⟩, by decide +kernel, rfl⟩
  obtain ⟨x, hx⟩ := Option.isSome_iff_exists.mp ((hfound "counter.requests").mpr hpublished)
  obtain ⟨-, hreading⟩ := hcombines (by decide +kernel) "counter.requests" x hx
  rw [if_pos (by decide), hlast] at hreading
  refine ⟨x, hx, hreading.value.trans ?_, ?_⟩
  · decide +kernel
  · obtain ⟨m, hm, hobserved⟩ := hreading.observed
    have hnewest := hreading.newest ⟨"metrics.app.node2.counter.requests", 5, ⟨3000000⟩⟩ (by simp)
    simp only [List.mem_cons, List.not_mem_nil, or_false] at hm
    rcases hm with rfl | rfl
    · rw [hobserved] at hnewest
      exact absurd hnewest (by decide)
    · exact hobserved

end Pipeline

end MetricRelay
