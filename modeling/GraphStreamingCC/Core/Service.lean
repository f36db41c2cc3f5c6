/-
Histories of a service that takes updates and answers questions, independent of what these are.

A history is a list of events, the latest first. An answer is right if it is one that the updates before it allow.
-/
import Mathlib.Tactic

namespace GraphStreamingCC.Service

/-- what the user of a service sees -/
inductive Event (U A : Type*) where
  /-- updates, handed over together -/
  | updates (us : List U)
  | answer (a : A)
  /-- a question that got no answer -/
  | failed
deriving DecidableEq, Repr

variable {U A : Type*} {correct : List U → A → Prop} {es : List (Event U A)}

/-- all updates of a history -/
def updates : List (Event U A) → List U
  | [] => []
  | .updates us :: es => us ++ updates es
  | .answer _ :: es | .failed :: es => updates es

/-- every answer is right for the updates before it -/
def Right (correct : List U → A → Prop) (es : List (Event U A)) : Prop :=
  ∀ later a earlier, es = later ++ .answer a :: earlier → correct (updates earlier) a

theorem right_nil : Right correct ([] : List (Event U A)) := by
  intro later a earlier h
  exact absurd h.symm (List.append_ne_nil_of_right_ne_nil _ (List.cons_ne_nil _ _))

/-- the next event has to be right only if it is an answer -/
theorem Right.cons (h : Right correct es) {e : Event U A} (he : ∀ a, e = .answer a → correct (updates es) a) :
    Right correct (e :: es) := by
  intro later a earlier heq
  rcases List.cons_eq_append_iff.1 heq with ⟨rfl, hea⟩ | ⟨later', rfl, hes⟩
  · obtain ⟨ha, rfl⟩ := List.cons.inj hea
    exact he a ha.symm
  · exact h later' a earlier hes

end GraphStreamingCC.Service
