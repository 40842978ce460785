import MetricRelay.Proofs.Config.Overrides
import Mathlib.Data.List.Induction

/-!
# Servers that are overridden

A file may give the servers more than once, and the broker's client takes
the parameters in their order, so that the last one counts (`handed?`). The
override writes the first one only (`filter_withServers`). It takes
precedence over the file where the file gives the servers once or not at
all; behind another one it is without effect, unless that one happens to
say the same.
-/

namespace MetricRelay

open Config

namespace Overrides

variable {servers : String} {ps : List ClientParameter}

/-- The parameters with the servers. -/
def serversIn (ps : List ClientParameter) : List ClientParameter := ps.filter namesServers

theorem namesServers_iff {p : ClientParameter} : namesServers p ↔ p.name = serverParameter :=
  beq_iff_eq

theorem filter_withServers (servers : String) (ps : List ClientParameter) :
    serversIn (withServers servers ps) = ⟨serverParameter, servers⟩ :: (serversIn ps).tail := by
  unfold serversIn
  induction ps with
  | nil => rfl
  | cons p ps ih =>
    by_cases hp : p.name = serverParameter
    · have hnew : ({ p with value := servers } : ClientParameter) = ⟨serverParameter, servers⟩ := by
        rw [← hp]
      rw [withServers, if_pos hp, hnew, List.filter_cons_of_pos rfl,
        List.filter_cons_of_pos (namesServers_iff.mpr hp), List.tail_cons]
    · have hother : ¬ namesServers p := mt namesServers_iff.mp hp
      rw [withServers, if_neg hp, List.filter_cons_of_neg hother,
        List.filter_cons_of_neg hother, ih]

theorem filter_not_withServers (servers : String) (ps : List ClientParameter) :
    (withServers servers ps).filter (!namesServers ·) = ps.filter (!namesServers ·) := by
  induction ps with
  | nil => rfl
  | cons p ps ih =>
    by_cases hp : p.name = serverParameter
    · have hold : namesServers p := namesServers_iff.mpr hp
      have hnew : namesServers { p with value := servers } := namesServers_iff.mpr hp
      rw [withServers, if_pos hp, List.filter_cons_of_neg (by simp [hnew]),
        List.filter_cons_of_neg (by simp [hold])]
    · have hother : ¬ namesServers p := mt namesServers_iff.mp hp
      rw [withServers, if_neg hp, List.filter_cons_of_pos (by simpa using hother),
        List.filter_cons_of_pos (by simpa using hother), ih]

/-- The value of a name that a client is left with to which the parameters
are handed one after the other. -/
def handed? (name : String) (ps : List ClientParameter) : Option String :=
  ps.foldl (fun held p => if p.name = name then some p.value else held) .none

theorem handed?_servers (ps : List ClientParameter) :
    handed? serverParameter ps = (serversIn ps).getLast?.map (·.value) := by
  induction ps using List.reverseRecOn with
  | nil => rfl
  | append_singleton ps p ih =>
    rw [handed?, List.foldl_append, List.foldl_cons, List.foldl_nil, serversIn, List.filter_append]
    by_cases hp : p.name = serverParameter
    · rw [if_pos hp, List.filter_cons_of_pos (namesServers_iff.mpr hp), List.filter_nil,
        List.getLast?_concat]
      rfl
    · rw [if_neg hp, List.filter_cons_of_neg (mt namesServers_iff.mp hp), List.filter_nil,
        List.append_nil]
      exact ih

end Overrides

/-- Overridden servers are in the first parameter for them; all other
parameters, those for the servers too, are the ones that there were. So the
override is the only value for the servers if and only if the parameters
behind the first one say the same, and it is the value that counts if and
only if the last of these does. -/
theorem Config.override_servers (c : Config) (o : Overrides) (servers : String)
    (hservers : o.serverList = some servers) (h : (c.override o).1 = none) :
    let ps := c.values.clientParameters
    let ps' := (c.override o).2.values.clientParameters
    let later := (Overrides.serversIn ps).tail
    Overrides.serversIn ps' = ⟨Overrides.serverParameter, servers⟩ :: later
      ∧ ps'.filter (!Overrides.namesServers ·) = ps.filter (!Overrides.namesServers ·)
      ∧ ((∀ p ∈ ps', p.name = Overrides.serverParameter → p.value = servers)
          ↔ ∀ p ∈ later, p.value = servers)
      ∧ (Overrides.handed? Overrides.serverParameter ps' = some servers
          ↔ ∀ p, later.getLast? = some p → p.value = servers) := by
  intro ps ps' later
  have hps' : ps' = Overrides.withServers servers ps := by
    have hread : o.readsHeaders := by
      rw [override_eq] at h
      exact (Overrides.refusal?_eq_none_iff.mp h).1
    have hchange : o.change.serverList = some servers := by
      rw [Overrides.change, if_pos hread]
      exact hservers
    show (c.override o).2.values.clientParameters = _
    rw [override_eq]
    dsimp only [Change.apply]
    rw [hchange]
    rfl
  have hfirst : Overrides.serversIn ps' = ⟨Overrides.serverParameter, servers⟩ :: later := by
    rw [hps', Overrides.filter_withServers]
  refine ⟨hfirst, ?_, ?_, ?_⟩
  · rw [hps', Overrides.filter_not_withServers]
  · have hmem : (∀ p ∈ ps', p.name = Overrides.serverParameter → p.value = servers)
        ↔ ∀ p ∈ Overrides.serversIn ps', p.value = servers := by
      simp only [Overrides.serversIn, List.mem_filter, Overrides.namesServers_iff, and_imp]
    rw [hmem, hfirst, List.forall_mem_cons]
    exact and_iff_right rfl
  · rw [Overrides.handed?_servers, hfirst, List.getLast?_cons]
    cases later.getLast? with
    | none => simp
    | some p => simp

/-- The servers stand between two other parameters, and the log level is
overridden as well. -/
theorem Config.override_servers_given_once :
    let c : Config := { Config.default with values := { Values.default with
      clientParameters := [⟨"acks", "all"⟩, ⟨"bootstrap.servers", "a:9092"⟩, ⟨"acks", "1"⟩] } }
    let o : Overrides :=
      { Overrides.none with serverList := some "b:9092", logLevel := some "WARN" }
    let ps' := (c.override o).2.values.clientParameters
    o.serverList = some "b:9092" ∧ (c.override o).1 = none
      ∧ ps'.filter (!Overrides.namesServers ·) = [⟨"acks", "all"⟩, ⟨"acks", "1"⟩]
      ∧ ∀ p ∈ ps', p.name = "bootstrap.servers" → p.value = "b:9092" := by
  intro c o ps'
  obtain ⟨-, hothers, hall, -⟩ := Config.override_servers c o "b:9092" rfl (by decide)
  exact ⟨rfl, by decide, hothers.trans (by decide), hall.mpr (by decide)⟩

/-- The servers of the file are the ones that count, since they stand in
two parameters. -/
theorem Config.second_servers_stay :
    let c : Config := { Config.default with values := { Values.default with
      clientParameters := [⟨"bootstrap.servers", "a:9092"⟩, ⟨"bootstrap.servers", "b:9092"⟩] } }
    let o : Overrides := { Overrides.none with serverList := some "c:9092" }
    let ps' := (c.override o).2.values.clientParameters
    (c.override o).1 = none
      ∧ ¬ (∀ p ∈ ps', p.name = "bootstrap.servers" → p.value = "c:9092")
      ∧ Overrides.handed? "bootstrap.servers" ps' = some "b:9092" := by
  decide

end MetricRelay
