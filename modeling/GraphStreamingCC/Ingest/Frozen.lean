/-
Are the vertex sketches frozen while a query runs?

Only when no update is under way: `apply_update_batch` tests `update_locked` once, at its start, and the other two entry
points never test it. `locked_sketch_changes`: a batch that passed the test before the query, or a raw bucket update at
any time, changes a sketch between the two assignments of `update_locked`.

`frozen_while_locked`: in every run in which a query begins only when no call is past its first statement, and no call of
`apply_raw_buckets_update` or `update` begins while `update_locked` is set, no bucket changes while it is set, and every
call of `apply_update_batch` that reaches its test throws and leaves all sketches as they were.
-/
import GraphStreamingCC.Core.Threads
import GraphStreamingCC.Sketch.Linear
import GraphStreamingCC.Ingest.Model

namespace GraphStreamingCC.Ingest

open Runs

variable {P : Params} {n W : ℕ} {s s' : St P n W}

/-- a call that has not executed a statement yet, or is still to test `update_locked` -/
def Pc.atTest : Pc P n → Bool
  | .test _ _ => true
  | _ => false

/-- worker w has no call that is past its test -/
def AtTest (s : St P n W) (w : Fin W) : Prop := ∀ x ∈ (s.workers w).cur, x.2.atTest = true

/-- the condition on a run: queries begin between updates, and only batches begin within queries -/
def Guarded (s : St P n W) : Label W → Prop
  | .query => ∀ w, AtTest s w
  | .worker w =>
    s.updateLocked = true → (s.workers w).cur = none → ∀ c ∈ (s.workers w).todo.head?, c.start.atTest = true
  | _ => True

instance (s : St P n W) : (l : Label W) → Decidable (Guarded s l)
  | .query => inferInstanceAs (Decidable (∀ w, ∀ x ∈ (s.workers w).cur, x.2.atTest = true))
  | .worker w =>
    inferInstanceAs (Decidable (s.updateLocked = true → (s.workers w).cur = none →
      ∀ c ∈ (s.workers w).todo.head?, c.start.atTest = true))
  | .round _ | .unlock | .reset => inferInstanceAs (Decidable True)

/-- while the flag is set, no call is past its test -/
def Inv (s : St P n W) : Prop := s.updateLocked = true → ∀ w, AtTest s w

/-- while the flag is set, a call that has not passed its test throws -/
theorem callStep_locked {w : Fin W} {c : Call P n} {pc : Pc P n} (hl : s.updateLocked = true)
    (ha : pc.atTest = true) : callStep s w c pc = s.finish w c .updateLocked := by
  cases pc with
  | test src dsts => simp only [callStep, hl, if_true]
  | zero | delta | raw | preInsert | updateSrc | updateDst => cases ha

theorem step_inv {l : Label W} (hg : Guarded s l) (h : Inv s) (hs : step s l = some s') : Inv s' := by
  intro hl'
  cases l with
  | worker w =>
    intro w'
    rcases workerStep_cases hs with ⟨c, cs, hcur, htodo, rfl⟩ | ⟨c, pc, hcur, rfl⟩
    · by_cases hw : w' = w
      · subst hw
        intro x hx
        simp only [Function.update_self, Option.mem_def, Option.some.injEq] at hx
        subst hx
        exact hg hl' hcur c (by rw [htodo]; rfl)
      · simp only [AtTest, Function.update_of_ne hw]
        exact h hl' w'
    · obtain ⟨hf, hother⟩ := callStep_frame s w c pc
      have hl : s.updateLocked = true := hf.symm.trans hl'
      by_cases hw : w' = w
      · subst hw
        intro x hx
        rw [callStep_locked hl (h hl w' (c, pc) hcur)] at hx
        simp [St.finish] at hx
      · unfold AtTest
        rw [hother w' hw]
        exact h hl w'
  | query =>
    simp only [step] at hs
    split_ifs at hs
    cases hs
    exact hg
  | round e =>
    simp only [step] at hs
    split at hs
    · cases hs
      exact h hl'
    · cases hs
  | unlock =>
    simp only [step] at hs
    split_ifs at hs
    cases hs
    cases hl'
  | reset =>
    simp only [step] at hs
    split_ifs at hs
    cases hs
    exact h hl'

theorem sampled_buckets (s : Sketch P) : (sampled s).buckets = s.buckets := by
  unfold sampled Sketch.sample
  split_ifs <;> rfl

/-- **Frozen while locked.** In every run in which queries begin only when no call is past its first statement and in
which no `apply_raw_buckets_update` or `update` begins while `update_locked` is set: a step taken while it is set changes
no bucket of any vertex sketch, and a call that makes a step then throws `UpdateLockedException`, with all vertex and
delta sketches as they were. -/
theorem frozen_while_locked {sketches : Fin n → Sketch P} {deltaSketches : Fin W → Sketch P}
    {progs : Fin W → List (Call P n)} {ls : List (Label W)} {l : Label W}
    (hg : Meets step Guarded (start sketches deltaSketches progs) (ls ++ [l]))
    (hr : exec step (start sketches deltaSketches progs) ls = some s) (hl : s.updateLocked = true)
    (hs : step s l = some s') :
    (∀ v, (s'.sketches v).buckets = (s.sketches v).buckets) ∧
      ∀ w c pc, l = .worker w → (s.workers w).cur = some (c, pc) →
        s'.sketches = s.sketches ∧ s'.deltaSketches = s.deltaSketches ∧ s'.ret = (w, c, .updateLocked) :: s.ret := by
  have hinv : Inv s :=
    exec_invariant_of_meets step (fun _ _ _ h hg hs => step_inv hg h hs) (fun h => by cases h)
      (meets_append step hr hg).1 hr
  cases l with
  | worker w =>
    rcases workerStep_cases hs with ⟨c, cs, hcur, htodo, rfl⟩ | ⟨c, pc, hcur, rfl⟩
    · refine ⟨fun v => rfl, fun w' c' pc' hw hc => ?_⟩
      cases hw
      rw [hcur] at hc
      cases hc
    · rw [callStep_locked hl (hinv hl w (c, pc) hcur)]
      refine ⟨fun v => rfl, fun w' c' pc' hw hc => ?_⟩
      cases hw
      rw [hcur] at hc
      cases hc
      exact ⟨rfl, rfl, rfl⟩
  | query | unlock =>
    simp only [step] at hs
    split_ifs at hs
    cases hs
    exact ⟨fun v => rfl, fun w c pc hw => by cases hw⟩
  | round e =>
    simp only [step] at hs
    split at hs
    · cases hs
      refine ⟨fun v => ?_, fun w c pc hw => by cases hw⟩
      dsimp only
      split_ifs
      · exact sampled_buckets _
      · rfl
    · cases hs
  | reset =>
    simp only [step] at hs
    split_ifs at hs
    cases hs
    exact ⟨fun v => rfl, fun w c pc hw => by cases hw⟩

/-! ## Runs -/

/-- one worker with the given calls -/
def tinyStart (cs : List (Call tiny 2)) : St tiny 2 1 := start (fun _ => .empty tiny) (fun _ => .empty tiny) fun _ => cs

/-- a batch that arrives during a query throws -/
theorem frozen_while_locked_batch :
    ∃ s s', exec step (tinyStart [.applyUpdateBatch 0 [1]]) [.query, .worker 0] = some s ∧
      step s (.worker 0) = some s' ∧ (∀ v, (s'.sketches v).buckets = (s.sketches v).buckets) ∧
      s'.sketches = s.sketches ∧ s'.ret = [(0, .applyUpdateBatch 0 [1], .updateLocked)] := by
  have hg : Meets step Guarded (tinyStart [.applyUpdateBatch 0 [1]]) ([.query, .worker 0] ++ [.worker 0]) := by decide
  refine ⟨_, _, rfl, rfl, ?_⟩
  have h := frozen_while_locked hg rfl rfl rfl
  exact ⟨h.1, (h.2 0 _ _ rfl rfl).1, (h.2 0 _ _ rfl rfl).2.2⟩

/-- **Updates in a query.** A batch that has passed its test before the query, and a raw bucket update at any time,
change a vertex sketch while `update_locked` is set. -/
theorem locked_sketch_changes :
    (exec step (tinyStart [.applyUpdateBatch 0 [1]])
        [.worker 0, .worker 0, .query, .worker 0, .worker 0, .worker 0]).map
      (fun s => (s.updateLocked, (s.sketches 0).buckets (Sketch.detBucket tiny))) = some (true, ⟨1, 1⟩) ∧
    (exec step (tinyStart [.applyRawBucketsUpdate 0 fun _ => ⟨1, 1⟩]) [.query, .worker 0, .worker 0]).map
      (fun s => (s.updateLocked, (s.sketches 0).buckets (Sketch.detBucket tiny))) = some (true, ⟨1, 1⟩) := by
  decide

end GraphStreamingCC.Ingest
