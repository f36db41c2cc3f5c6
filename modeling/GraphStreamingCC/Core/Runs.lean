/-
Runs of a labelled step function, independent of what the steps do.

A machine is a function `step : σ → ℓ → Option σ`: from a state, a label names one atomic step of one party (and its
choice, where the party has one); `none` means that the label is not enabled. An interleaving of any number of parties
is a list of labels, and `exec` executes it.

- `exec_invariant`: what every step preserves holds in every state a run reaches.
- `Meets` / `exec_invariant_of_meets`: the same for runs whose every step meets a condition on the state before the
  step and the label. This is the form of a guarantee that one bad step can break.
- `Reached`: the states on the way, so that a fact about every step of a run can be stated.
- `count` / `exec_cost`: the steps of a run that meet a condition, bounded by a weight that each of them pays from.
- `Endless` / `Endless.again_and_again`: if every step lowers a rank but those that meet a condition, a run that does not
  end makes steps that meet it again and again.
-/
import Mathlib.Tactic

namespace GraphStreamingCC.Runs

variable {σ ℓ : Type*} (step : σ → ℓ → Option σ)

/-- execute a list of labels; `none` as soon as one of them is not enabled -/
def exec (s : σ) : List ℓ → Option σ
  | [] => some s
  | l :: ls =>
    match step s l with
    | none => none
    | some s' => exec s' ls

@[simp] theorem exec_nil (s : σ) : exec step s [] = some s := rfl

theorem exec_cons {s s' : σ} {l : ℓ} (ls : List ℓ) (h : step s l = some s') :
    exec step s (l :: ls) = exec step s' ls := by
  simp only [exec, h]

theorem exec_cons_some {s t : σ} {l : ℓ} {ls : List ℓ} (h : exec step s (l :: ls) = some t) :
    ∃ s', step s l = some s' ∧ exec step s' ls = some t := by
  simp only [exec] at h
  split at h
  · cases h
  · rename_i s' hs; exact ⟨s', hs, h⟩

theorem exec_append {s t : σ} {ls : List ℓ} (ms : List ℓ) (h : exec step s ls = some t) :
    exec step s (ls ++ ms) = exec step t ms := by
  induction ls generalizing s with
  | nil => cases h; rfl
  | cons l ls ih =>
    obtain ⟨s', hs, ht⟩ := exec_cons_some step h
    rw [List.cons_append, exec_cons step _ hs]
    exact ih ht

theorem exec_append_some {s t : σ} {ls ms : List ℓ} (h : exec step s (ls ++ ms) = some t) :
    ∃ u, exec step s ls = some u ∧ exec step u ms = some t := by
  induction ls generalizing s with
  | nil => exact ⟨s, rfl, h⟩
  | cons l ls ih =>
    obtain ⟨s', hs, ht⟩ := exec_cons_some step h
    rw [exec_cons step _ hs]
    exact ih ht

/-- **Invariant rule.** What every enabled step preserves holds at the end of every run. -/
theorem exec_invariant {I : σ → Prop} (hstep : ∀ s l s', I s → step s l = some s' → I s') {s t : σ} {ls : List ℓ}
    (h0 : I s) (h : exec step s ls = some t) : I t := by
  induction ls generalizing s with
  | nil => cases h; exact h0
  | cons l ls ih =>
    obtain ⟨s', hs, ht⟩ := exec_cons_some step h
    exact ih (hstep s l s' h0 hs) ht

/-- every step of the run meets the condition, in the state before the step -/
def Meets (cond : σ → ℓ → Prop) (s : σ) : List ℓ → Prop
  | [] => True
  | l :: ls => cond s l ∧ ∀ s', step s l = some s' → Meets cond s' ls

/-- **Invariant rule for runs whose steps meet a condition.** -/
theorem exec_invariant_of_meets {I : σ → Prop} {cond : σ → ℓ → Prop}
    (hstep : ∀ s l s', I s → cond s l → step s l = some s' → I s') {s t : σ} {ls : List ℓ}
    (h0 : I s) (hc : Meets step cond s ls) (h : exec step s ls = some t) : I t := by
  induction ls generalizing s with
  | nil => cases h; exact h0
  | cons l ls ih =>
    obtain ⟨s', hs, ht⟩ := exec_cons_some step h
    exact ih (hstep s l s' h0 hc.1 hs) (hc.2 s' hs) ht

theorem meets_cons {cond : σ → ℓ → Prop} {s s' : σ} {l : ℓ} (ls : List ℓ) (h : step s l = some s') :
    Meets step cond s (l :: ls) ↔ cond s l ∧ Meets step cond s' ls := by
  refine and_congr_right fun _ => ⟨fun hm => hm s' h, fun hm s'' hs => ?_⟩
  cases h.symm.trans hs
  exact hm

instance decidableMeets {cond : σ → ℓ → Prop} [∀ s l, Decidable (cond s l)] :
    ∀ (ls : List ℓ) (s : σ), Decidable (Meets step cond s ls)
  | [], _ => isTrue trivial
  | l :: ls, s =>
    match h : step s l with
    | none => decidable_of_iff (cond s l) ⟨fun hc => ⟨hc, fun s' hs => by simp [h] at hs⟩, And.left⟩
    | some s' =>
      haveI : Decidable (Meets step cond s' ls) := decidableMeets ls s'
      decidable_of_iff (cond s l ∧ Meets step cond s' ls)
        ⟨fun hc => ⟨hc.1, fun _ hs => by rw [h] at hs; cases hs; exact hc.2⟩, fun hc => ⟨hc.1, hc.2 s' h⟩⟩

/-- a condition that each label meets in every state -/
theorem meets_of_forall {cond : σ → ℓ → Prop} {ls : List ℓ} (h : ∀ l ∈ ls, ∀ s, cond s l) (s : σ) :
    Meets step cond s ls := by
  induction ls generalizing s with
  | nil => trivial
  | cons l ls ih =>
    exact ⟨h l List.mem_cons_self s, fun s' _ => ih (fun l hl => h l (List.mem_cons_of_mem _ hl)) s'⟩

theorem meets_mono {c d : σ → ℓ → Prop} {ls : List ℓ} {s : σ} (h : ∀ s l, c s l → d s l) (hc : Meets step c s ls) :
    Meets step d s ls := by
  induction ls generalizing s with
  | nil => trivial
  | cons l ls ih => exact ⟨h s l hc.1, fun s' hs => ih (hc.2 s' hs)⟩

theorem meets_and {c d : σ → ℓ → Prop} {ls : List ℓ} {s : σ} (hc : Meets step c s ls) (hd : Meets step d s ls) :
    Meets step (fun s l => c s l ∧ d s l) s ls := by
  induction ls generalizing s with
  | nil => trivial
  | cons l ls ih => exact ⟨⟨hc.1, hd.1⟩, fun s' hs => ih (hc.2 s' hs) (hd.2 s' hs)⟩

theorem meets_append {cond : σ → ℓ → Prop} {s t : σ} {ls ms : List ℓ} (h : exec step s ls = some t)
    (hc : Meets step cond s (ls ++ ms)) : Meets step cond s ls ∧ Meets step cond t ms := by
  induction ls generalizing s with
  | nil => cases h; exact ⟨trivial, hc⟩
  | cons l ls ih =>
    obtain ⟨s', hs, ht⟩ := exec_cons_some step h
    obtain ⟨h1, h2⟩ := ih ht (hc.2 s' hs)
    refine ⟨⟨hc.1, fun s'' hs'' => ?_⟩, h2⟩
    rw [hs] at hs''; cases hs''; exact h1

theorem meets_append_of {cond : σ → ℓ → Prop} {s t : σ} {ls ms : List ℓ} (h : exec step s ls = some t)
    (hc : Meets step cond s ls) (hc' : Meets step cond t ms) : Meets step cond s (ls ++ ms) := by
  induction ls generalizing s with
  | nil =>
    cases h
    exact hc'
  | cons l ls ih =>
    obtain ⟨s', hs, ht⟩ := exec_cons_some step h
    rw [List.cons_append, meets_cons step _ hs]
    exact ⟨hc.1, ih ht (hc.2 s' hs)⟩

/-- `t` is reached from `s` by some run -/
def Reached (s t : σ) : Prop := ∃ ls, exec step s ls = some t

theorem Reached.invariant {I : σ → Prop} (hstep : ∀ s l s', I s → step s l = some s' → I s') {s t : σ}
    (h0 : I s) (h : Reached step s t) : I t := by
  obtain ⟨ls, hl⟩ := h
  exact exec_invariant step hstep h0 hl

/-! ## Counting steps -/

/-- the number of steps of the run that meet the condition, in the state before the step -/
def count (cond : σ → ℓ → Prop) [∀ s l, Decidable (cond s l)] (s : σ) : List ℓ → ℕ
  | [] => 0
  | l :: ls =>
    (if cond s l then 1 else 0) +
      match step s l with
      | none => 0
      | some s' => count cond s' ls

theorem count_cons {cond : σ → ℓ → Prop} [∀ s l, Decidable (cond s l)] {s s' : σ} {l : ℓ} (ls : List ℓ)
    (h : step s l = some s') : count step cond s (l :: ls) = (if cond s l then 1 else 0) + count step cond s' ls := by
  simp only [count, h]

/-- **Cost rule.** If every step that meets `c` pays 1 from a weight, no step adds to it but one that meets `d`, and such a
step adds at most `refund`, then the run has at most as many steps that meet `c` as the weight it began with and the
refunds allow. -/
theorem exec_cost {I : σ → Prop} {c d : σ → ℓ → Prop} [∀ s l, Decidable (c s l)]
    [∀ s l, Decidable (d s l)] (weight : σ → ℕ) (refund : ℕ)
    (hstep : ∀ s l s', I s → step s l = some s' → I s' ∧
      weight s' + (if c s l then 1 else 0) ≤ weight s + if d s l then refund else 0)
    {s t : σ} {ls : List ℓ} (h0 : I s) (h : exec step s ls = some t) :
    count step c s ls + weight t ≤ weight s + refund * count step d s ls := by
  induction ls generalizing s with
  | nil =>
    cases h
    exact (Nat.zero_add _).le
  | cons l ls ih =>
    obtain ⟨s', hs, ht⟩ := exec_cons_some step h
    obtain ⟨h1, hpay⟩ := hstep s l s' h0 hs
    have hrest := ih h1 ht
    rw [count_cons step ls hs, count_cons step ls hs, Nat.mul_add, mul_ite, Nat.mul_one, Nat.mul_zero]
    omega

/-! ## Runs that do not end -/

/-- a run that does not end: its states, and the labels that lead from each to the next -/
def Endless (states : ℕ → σ) (ls : ℕ → ℓ) : Prop := ∀ k, step (states k) (ls k) = some (states (k + 1))

variable {states : ℕ → σ} {ls : ℕ → ℓ}

theorem Endless.invariant {I : σ → Prop} (hstep : ∀ s l s', I s → step s l = some s' → I s') (h : Endless step states ls)
    (h0 : I (states 0)) (k : ℕ) : I (states k) := by
  induction k with
  | zero => exact h0
  | succ k ih => exact hstep _ _ _ ih (h k)

/-- **Ranking rule.** If every step lowers a well-founded rank unless it meets the condition, a run that does not end
makes steps that meet the condition again and again. -/
theorem Endless.again_and_again {γ : Type*} [Preorder γ] [WellFoundedLT γ] {I : σ → Prop} {cond : σ → ℓ → Prop}
    (rank : σ → γ) (hstep : ∀ s l s', I s → step s l = some s' → I s' ∧ (¬ cond s l → rank s' < rank s))
    (h : Endless step states ls) (h0 : I (states 0)) (k : ℕ) : ∃ j, k ≤ j ∧ cond (states j) (ls j) := by
  by_contra hno
  have hinv : ∀ j, I (states j) := h.invariant step (fun s l s' hs hl => (hstep s l s' hs hl).1) h0
  obtain ⟨i, hi⟩ := WellFounded.not_rel_apply_succ (r := ((· < ·) : γ → γ → Prop)) fun i => rank (states (k + i))
  exact hi ((hstep _ _ _ (hinv (k + i)) (h (k + i))).2 fun hc => hno ⟨k + i, Nat.le_add_right k i, hc⟩)

end GraphStreamingCC.Runs
