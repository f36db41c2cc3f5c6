/-
Refinement between two machines, independent of what their steps do.

A machine refines another one along a function `abs` of its states if each of its steps, from a state that its invariant
allows, is a step of the other one or leaves `abs` alone. Conditions on the steps of a run go up with it.

- `Refines`: the condition on one step.
- `Refines.run`: a run goes up to a run, and the invariant holds at its end.
-/
import GraphStreamingCC.Core.Runs

namespace GraphStreamingCC.Runs

variable {σ ℓ τ κ : Type*}

/-- from the states that the invariant I allows, every step that meets `c` keeps I, and is a step of the other machine
that meets `d`, or none -/
def Refines (step : σ → ℓ → Option σ) (c : σ → ℓ → Prop) (I : σ → Prop) (abs : σ → τ) (above : τ → κ → Option τ)
    (d : τ → κ → Prop) : Prop :=
  ∀ s l s', I s → c s l → step s l = some s' →
    I s' ∧ (abs s' = abs s ∨ ∃ k, d (abs s) k ∧ above (abs s) k = some (abs s'))

variable {step : σ → ℓ → Option σ} {c : σ → ℓ → Prop} {I : σ → Prop} {abs : σ → τ} {above : τ → κ → Option τ}
  {d : τ → κ → Prop}

/-- **Refinement rule.** A run whose steps meet `c` goes up to a run between the images of its ends, whose steps meet `d`. -/
theorem Refines.run (h : Refines step c I abs above d) {s t : σ} {ls : List ℓ} (h0 : I s) (hc : Meets step c s ls)
    (hs : exec step s ls = some t) :
    I t ∧ ∃ ks, exec above (abs s) ks = some (abs t) ∧ Meets above d (abs s) ks := by
  induction ls generalizing s with
  | nil =>
    cases hs
    exact ⟨h0, [], rfl, trivial⟩
  | cons l ls ih =>
    obtain ⟨s', hstep, ht⟩ := exec_cons_some step hs
    obtain ⟨h1, hup⟩ := h s l s' h0 hc.1 hstep
    obtain ⟨hinv, ks, hrun, hmeets⟩ := ih h1 (hc.2 s' hstep) ht
    refine ⟨hinv, ?_⟩
    rcases hup with heq | ⟨k, hk, hup⟩
    · rw [heq] at hrun hmeets
      exact ⟨ks, hrun, hmeets⟩
    · refine ⟨k :: ks, ?_, ?_⟩
      · rw [exec_cons above ks hup]
        exact hrun
      · rw [meets_cons above ks hup]
        exact ⟨hk, hmeets⟩

end GraphStreamingCC.Runs
