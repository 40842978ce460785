import MetricRelay.Proofs.Delivery
import MetricRelay.Proofs.Storing
import Mathlib.Data.List.DropRight
import Mathlib.Data.List.MinMax

/-!
# A broker and a flow with the same prefix

A broker normalizes its prefix and a flow takes it as it is, so the two
store the same readings under prefixes that may differ. What a repository
holds gives the prefix away, whatever the names are that follow it
(`prefix_eq`): a longer prefix would make the longest of the stored names
longer, and of two prefixes of one length each stored name shows the one
that it begins with. Hence the channels agree just when normalizing does
nothing.
-/

namespace MetricRelay

/-! ## Normalized prefixes -/

theorem Text.dropTrailing_eq_self_iff {c : Char} {cs : List Char} :
    dropTrailing c cs = cs ↔ cs.getLast? ≠ some c := by
  have hdrop : dropTrailing c cs = cs.rdropWhile (· == c) := rfl
  rw [hdrop, List.rdropWhile_eq_self_iff]
  constructor
  · intro h hlast
    have hne : cs ≠ [] := by
      rintro rfl
      cases hlast
    have hc := List.getLast?_eq_some_getLast hne
    rw [hlast, Option.some.injEq] at hc
    exact h hne (by simp [← hc])
  · intro h hne hc
    rw [List.getLast?_eq_some_getLast hne] at h
    exact h (congrArg some (beq_iff_eq.mp hc))

theorem Text.trimTrailing_eq_self_iff {c : Char} {s : String} :
    trimTrailing c s = s ↔ ¬ endsWithChar s c := by
  have hlist : trimTrailing c s = s ↔ dropTrailing c s.toList = s.toList := by
    rw [trimTrailing, ← String.toList_inj, String.toList_ofList]
  rw [hlist, dropTrailing_eq_self_iff, endsWithChar, beq_iff_eq]

/-- A prefix is normalized just when it is there and has no dot at its
end. -/
theorem Routing.normalize_eq_self_iff {p : String} :
    normalize (some p) = p ↔ p ≠ "" ∧ ¬ Text.endsWithChar p '.' := by
  rw [normalize, ← Text.trimTrailing_eq_self_iff]
  split
  · next htrimmed =>
    rw [htrimmed]
    constructor
    · -- the default prefix has no dots at its end, so it is not what was trimmed
      rintro rfl
      exact absurd htrimmed (by decide)
    · rintro ⟨hne, heq⟩
      exact absurd heq.symm hne
  · next htrimmed => exact ⟨fun heq => ⟨heq ▸ htrimmed, heq⟩, And.right⟩

namespace Pipeline

/-! ## What a channel stores -/

/-- A write that can be published and decoded again: no reset, and with a
finite value. -/
def Carriable : Write → Prop
  | .record m => m.value.isFinite
  | .increment d => d.value.isFinite
  | .reset _ _ => False

/-- The reading that consumers take a write for. -/
def reading? : Write → Option Metric
  | .record m => some m
  | .increment d => some d.change
  | .reset _ _ => none

/-- What the consumer has stored after the writes to a single producer and
a delivery. -/
def through (c : Consumer) (p : Producer) (clock : Nat → Instant) (ws : List Write) :
    Repository :=
  (run c [p] (ws.map (.write 0) ++ [.deliver clock])).2.content

variable {c : Consumer} {p : Producer} {ws : List Write}

theorem accepts?_of_carriable {w : Write} (p : Producer) (hw : Carriable w) :
    p.accepts? w = reading? w := by
  cases w with
  | record m => exact if_pos hw
  | increment d => exact if_pos hw
  | reset name asked => exact hw.elim

theorem reading?_isSome {w : Write} (hw : Carriable w) : ∃ m, reading? w = some m := by
  cases w with
  | record m => exact ⟨m, rfl⟩
  | increment d => exact ⟨d.change, rfl⟩
  | reset name asked => exact hw.elim

/-- The readings that the writes stand for are stored under the
namespace of their producer. -/
theorem through_eq (c : Consumer) (p : Producer) (clock : Nat → Instant)
    (hsound : ∀ w ∈ ws, Sound w) (hws : ∀ w ∈ ws, Carriable w) :
    through c p clock ws
      = (((ws.filterMap reading?).map Wire.received).map (Metric.within (p.nameSpace c))).foldl
          Repository.record .empty := by
  have hsteps : ∀ st ∈ ws.map (Step.write 0), st.Sound := by
    intro st hst
    obtain ⟨w, hw, rfl⟩ := List.mem_map.mp hst
    exact hsound w hw
  have haccepted : accepted [p] (ws.map (.write 0)) = (ws.filterMap reading?).map (p, ·) := by
    rw [accepted, List.filterMap_map, List.map_filterMap]
    refine List.filterMap_congr fun w hw => ?_
    rw [← accepts?_of_carriable p (hws w hw)]
    rfl
  rw [through, (inTransit_run_deliver c [p] hsteps clock).content, haccepted, stored,
    List.map_map, List.map_map]
  rfl

/-! ## Prefixes -/

theorem find?_foldl_record_isSome (ns : String) (ms : List Metric) (stored : String) :
    (((ms.map (Metric.within ns)).foldl Repository.record .empty).find? stored).isSome
      ↔ ∃ m ∈ ms, ns ++ m.name = stored := by
  rw [Repository.isSome_find?_foldl_record]
  simp [Metric.within]

variable {ns ns' : String} {ms : List Metric}

theorem exists_name_of_eq (h : (ms.map (Metric.within ns)).foldl Repository.record .empty
      = (ms.map (Metric.within ns')).foldl Repository.record .empty) {m : Metric} (hm : m ∈ ms) :
    ∃ n ∈ ms, ns' ++ n.name = ns ++ m.name := by
  rw [← find?_foldl_record_isSome, ← h, find?_foldl_record_isSome]
  exact ⟨m, hm, rfl⟩

/-- The longest of the stored names is as long as the prefix makes it. -/
theorem length_le_of_eq (hne : ms ≠ [])
    (h : (ms.map (Metric.within ns)).foldl Repository.record .empty
      = (ms.map (Metric.within ns')).foldl Repository.record .empty) : ns.length ≤ ns'.length := by
  obtain ⟨m, hmax⟩ := Option.ne_none_iff_exists'.mp
    (mt List.argmax_eq_none.mp hne : ms.argmax (·.name.length) ≠ none)
  obtain ⟨n, hn, heq⟩ := exists_name_of_eq h (List.argmax_mem hmax)
  have hlength := congrArg String.length heq
  rw [String.length_append, String.length_append] at hlength
  have hle : n.name.length ≤ m.name.length :=
    List.le_of_mem_argmax (f := fun m : Metric => m.name.length) hn hmax
  omega

/-- Repositories with the same readings under two prefixes are equal only
if the prefixes are. -/
theorem prefix_eq (hne : ms ≠ [])
    (h : (ms.map (Metric.within ns)).foldl Repository.record .empty
      = (ms.map (Metric.within ns')).foldl Repository.record .empty) : ns = ns' := by
  have hlength : ns.length = ns'.length :=
    Nat.le_antisymm (length_le_of_eq hne h) (length_le_of_eq hne h.symm)
  obtain ⟨m, hm⟩ := List.exists_mem_of_ne_nil ms hne
  obtain ⟨n, -, heq⟩ := exists_name_of_eq h hm
  have hlist := congrArg String.toList heq
  rw [String.toList_append, String.toList_append] at hlist
  exact String.toList_inj.mp (List.append_inj hlist hlength.symm).1.symm

/-! ## The two channels -/

/-- A broker with headers before a listener and a flow with the same
prefix store the same just when the prefix is normalized. -/
theorem channels_agree_iff (p exchange exchange' : String) (l : Listener)
    (clock clock' : Nat → Instant) (ws : List Write) (hne : ws ≠ [])
    (hsound : ∀ w ∈ ws, Sound w) (hws : ∀ w ∈ ws, Carriable w) :
    (through (.listener l) (.broker ⟨.make exchange (some p) .empty, true⟩) clock ws
        = through .inbound (.flow ⟨exchange', p⟩) clock' ws
      ↔ Routing.normalize (some p) = p)
    ∧ (Routing.normalize (some p) = p ↔ p ≠ "" ∧ ¬ Text.endsWithChar p '.') := by
  refine ⟨?_, Routing.normalize_eq_self_iff⟩
  have hbroker : (Producer.broker ⟨.make exchange (some p) .empty, true⟩).nameSpace (.listener l)
      = Routing.normalize (some p) ++ "." := rfl
  have hflow : (Producer.flow ⟨exchange', p⟩).nameSpace .inbound = p ++ "." := rfl
  rw [through_eq _ _ clock hsound hws, through_eq _ _ clock' hsound hws, hbroker, hflow]
  constructor
  · intro h
    have hreadings : (ws.filterMap reading?).map Wire.received ≠ [] := by
      obtain ⟨w, hw⟩ := List.exists_mem_of_ne_nil ws hne
      obtain ⟨m, hm⟩ := reading?_isSome (hws w hw)
      exact List.ne_nil_of_mem (List.mem_map_of_mem (List.mem_filterMap.mpr ⟨w, hw, hm⟩))
    have hdots := congrArg String.toList (prefix_eq hreadings h)
    rw [String.toList_append, String.toList_append] at hdots
    exact String.toList_inj.mp (List.append_cancel_right hdots)
  · intro h
    rw [h]

/-- Seven dots are as long as the default prefix that stands for them. -/
theorem channels_differ_on_seven_dots :
    let ws : List Write := [.record ⟨"gauge.load", 0.5, ⟨0⟩⟩, .increment ⟨⟨"counter.hits", 2, ⟨0⟩⟩⟩]
    through (.listener .plain) (.broker ⟨.make "metrics" (some ".......") .empty, true⟩)
        (fun _ => ⟨0⟩) ws
      ≠ through .inbound (.flow ⟨"flows", "......."⟩) (fun _ => ⟨0⟩) ws := by
  intro ws h
  have hsound : ∀ w ∈ ws, Sound w := by decide
  have hws : ∀ w ∈ ws, Carriable w := by
    intro w hw
    simp only [ws, List.mem_cons, List.not_mem_nil, or_false] at hw
    rcases hw with rfl | rfl
    · show (0.5 : Float).isFinite
      decide
    · show (2 : Float).isFinite
      decide
  obtain ⟨hagree, hnormalized⟩ := channels_agree_iff "......." "metrics" "flows" .plain
    (fun _ => ⟨0⟩) (fun _ => ⟨0⟩) ws (by simp [ws]) hsound hws
  exact (hnormalized.mp (hagree.mp h)).2 (by decide)

end Pipeline

end MetricRelay
