import MetricRelay.Sink
import Mathlib.Data.List.Basic

/-!
# Steps in turn

A run gives a step its inputs one after the other, each at the state that
the one before it left. So the reply to an input is the step at the state
behind the inputs before it (`getElem?_inTurn`), and what is measured is
measured reply by reply. Two steps that agree on each input agree on a run
(`agrees_inTurn`).
-/

namespace MetricRelay

/-- The number of measurements that are sent under a name. -/
def Health.countOf (name : String) (hs : List Health) : Nat :=
  hs.countP (·.measurement.name = name)

@[simp]
theorem Health.countOf_append (name : String) (hs hs' : List Health) :
    countOf name (hs ++ hs') = countOf name hs + countOf name hs' :=
  List.countP_append

namespace Reply

variable {σ ε α : Type} {step : σ → α → Reply σ ε Unit}

/-- The replies of a step to inputs, in order. -/
def inTurn (step : σ → α → Reply σ ε Unit) : σ → List α → List (Reply σ ε Unit)
  | _, [] => []
  | s, a :: as => step s a :: inTurn step (step s a).state as

/-- The state behind the inputs. -/
def stateAfter (step : σ → α → Reply σ ε Unit) (s : σ) (as : List α) : σ :=
  as.foldl (fun s a => (step s a).state) s

def measured (rs : List (Reply σ ε Unit)) : List Health :=
  rs.flatMap (·.trail.measured)

theorem measured_cons (r : Reply σ ε Unit) (rs : List (Reply σ ε Unit)) :
    measured (r :: rs) = r.trail.measured ++ measured rs :=
  List.flatMap_cons

theorem length_inTurn (s : σ) (as : List α) : (inTurn step s as).length = as.length := by
  induction as generalizing s with
  | nil => rfl
  | cons a as ih => rw [inTurn, List.length_cons, List.length_cons, ih]

theorem getElem?_inTurn (s : σ) (as : List α) (i : Nat) :
    (inTurn step s as)[i]? = as[i]?.map (step (stateAfter step s (as.take i))) := by
  induction as generalizing s i with
  | nil => rfl
  | cons a as ih =>
    cases i with
    | zero => rfl
    | succ i =>
      rw [inTurn, List.getElem?_cons_succ, List.getElem?_cons_succ, ih]
      rfl

theorem eq_of_getElem?_inTurn {s : σ} {as : List α} {i : Nat} {a : α} {r : Reply σ ε Unit}
    (ha : as[i]? = some a) (hr : (inTurn step s as)[i]? = some r) :
    r = step (stateAfter step s (as.take i)) a := by
  rw [getElem?_inTurn, ha, Option.map_some] at hr
  exact (Option.some.inj hr).symm

/-! ## Steps that agree -/

/-- The replies differ in nothing but what is logged. -/
structure Agrees (r r' : Reply σ ε Unit) : Prop where
  answer : r.answer = r'.answer
  state : r.state = r'.state
  measured : r.trail.measured = r'.trail.measured

variable {β γ : Type} {step' : σ → β → Reply σ ε Unit} {f : γ → α} {g : γ → β}

theorem agrees_inTurn (h : ∀ s c, Agrees (step s (f c)) (step' s (g c))) (s : σ) (cs : List γ) :
    List.Forall₂ Agrees (inTurn step s (cs.map f)) (inTurn step' s (cs.map g)) := by
  induction cs generalizing s with
  | nil => exact .nil
  | cons c cs ih =>
    rw [List.map_cons, List.map_cons, inTurn, inTurn, ← (h s c).state]
    exact .cons (h s c) (ih _)

theorem stateAfter_of_agrees (h : ∀ s c, Agrees (step s (f c)) (step' s (g c))) (s : σ)
    (cs : List γ) : stateAfter step s (cs.map f) = stateAfter step' s (cs.map g) := by
  rw [stateAfter, stateAfter, List.foldl_map, List.foldl_map]
  congr
  funext s c
  exact (h s c).state

theorem measured_of_agrees {rs rs' : List (Reply σ ε Unit)} (h : List.Forall₂ Agrees rs rs') :
    measured rs = measured rs' := by
  induction h with
  | nil => rfl
  | cons hr _ ih => rw [measured_cons, measured_cons, hr.measured, ih]

end Reply

/-! ## Sinks -/

namespace Sink

variable {σ ε : Type} (k : Sink σ ε)

theorem replies_eq_inTurn (s : σ) (ws : List Write) :
    k.replies s ws = Reply.inTurn k.accept s ws := by
  induction ws generalizing s with
  | nil => rfl
  | cons w ws ih =>
    rw [replies, Reply.inTurn, ih]

theorem length_replies (s : σ) (ws : List Write) : (k.replies s ws).length = ws.length := by
  rw [k.replies_eq_inTurn, Reply.length_inTurn]

/-- Each reply of a run is that to one write, in the state that the writes
before it lead to. -/
theorem eq_of_getElem?_replies {s : σ} {ws : List Write} {i : Nat} {w : Write}
    {r : Reply σ ε Unit} (hw : ws[i]? = some w) (hr : (k.replies s ws)[i]? = some r) :
    r = k.accept (k.final s (ws.take i)) w := by
  rw [k.replies_eq_inTurn] at hr
  exact Reply.eq_of_getElem?_inTurn hw hr

theorem final_append (s : σ) (ws ws' : List Write) :
    k.final s (ws ++ ws') = k.final (k.final s ws) ws' :=
  List.foldl_append

theorem measurements_cons (s : σ) (w : Write) (ws : List Write) :
    k.measurements s (w :: ws)
      = (k.accept s w).trail.measured ++ k.measurements (k.accept s w).state ws :=
  List.flatMap_cons

theorem measurements_append (s : σ) (ws ws' : List Write) :
    k.measurements s (ws ++ ws') = k.measurements s ws ++ k.measurements (k.final s ws) ws' := by
  induction ws generalizing s with
  | nil => rfl
  | cons w ws ih =>
    rw [List.cons_append, measurements_cons, measurements_cons, ih, List.append_assoc]
    rfl

/-- The sink with the writes that reach it noted beside its state. -/
def noting : Sink (σ × List Write) ε where
  accept s w := (k.accept s.1 w).mapState (·, s.2 ++ [w])

theorem final_noting (s : σ) (noted ws : List Write) :
    k.noting.final (s, noted) ws = (k.final s ws, noted ++ ws) := by
  induction ws generalizing s noted with
  | nil => rw [List.append_nil]; rfl
  | cons w ws ih =>
    have hcons : k.noting.final (s, noted) (w :: ws)
        = k.noting.final ((k.accept s w).state, noted ++ [w]) ws := rfl
    rw [hcons, ih, List.append_assoc]
    rfl

end Sink

end MetricRelay
