/-
No worker sleeps through a flush, as long as each flush finds the workers woken from the last one.

`resume_workers` clears `do_pause` and `paused` from outside, and the worker leaves its wait only when it evaluates its
predicate. If the next flush raises `do_pause` before it does, the worker goes back to waiting, but it raises `paused`
only on its way INTO the wait: `flush_workers` waits for a flag that nobody will set (`flush_sleeps`), whatever else
happens (`sleeps_forever`).

`no_sleep`: in every run in which each `pause()` finds its worker out of the wait, or still counted as paused, no worker
is ever in the wait with `do_pause` raised and `paused` cleared.
-/
import GraphStreamingCC.Driver.Flush

namespace GraphStreamingCC.Workers

open Runs

variable {N : ℕ}

/-- the driver is in the waiting loop of `flush_workers` -/
def DPc.inLoop : DPc → Bool
  | .flushLock | .flushPred _ | .flushWait | .flushCheck _ | .flushUnlock _ => true
  | _ => false

/-- worker i is in its wait, asked to pause and not counted as paused -/
def Sleeps (s : St N) (i : Fin N) : Prop := (s.w i).inWait = true ∧ s.doPause i = true ∧ s.paused i = false

/-- the condition of a step: `pause()` does not find its worker in the wait with `paused` cleared -/
def Woken (s : St N) : Label N → Prop
  | .driver _ => ∀ i : Fin N, s.d = .pause i → (s.w i).inWait = true → s.paused i = true
  | _ => True

instance (s : St N) (l : Label N) : Decidable (Woken s l) := by
  cases l <;> unfold Woken <;> infer_instance

structure NoSleep (s : St N) : Prop where
  unpausing : ∀ i : Fin N, s.d = .unpausePaused i → s.doPause i = false
  awake : ∀ i, ¬ Sleeps s i

/-! ## One step -/

section step

variable {s s' : St N}

theorem Sleeps.of_eq {i : Fin N} (h : Sleeps s' i) (hw : (s'.w i).inWait = (s.w i).inWait)
    (hd : s'.doPause i = s.doPause i) (hp : s'.paused i = s.paused i) : Sleeps s i := by
  obtain ⟨h1, h2, h3⟩ := h
  exact ⟨hw ▸ h1, hd ▸ h2, hp ▸ h3⟩

/-- a worker comes into the wait with its flag raised -/
theorem workerStep_sleeps {i : Fin N} {k : ℕ} (h : workerStep s i k = some s') {j : Fin N} (hj : Sleeps s' j) :
    Sleeps s j := by
  obtain ⟨hw, hd, hp⟩ := hj
  rw [(workerStep_frame h).2.1] at hd
  by_cases hji : j = i
  · subst hji
    unfold workerStep at h
    split at h <;> (try split at h) <;> (try split at h) <;> cases h <;> simp_all [WPc.inWait, Sleeps]
  · obtain ⟨hpj, hwj⟩ := workerStep_other h hji
    refine ⟨?_, hd, hpj ▸ hp⟩
    rcases hwj with hwj | hwj
    · rwa [hwj] at hw
    · rwa [hwj, inWait_notifyAll] at hw

/-- the driver raises `do_pause` in `pause` only -/
theorem driverStep_noSleep {t : Bool} (hc : Woken s (.driver t)) (hn : NoSleep s) (h : driverStep s t = some s') :
    NoSleep s' := by
  obtain ⟨hun, hsl⟩ := hn
  -- a step that leaves the flags alone
  have hquiet : (∀ i, (s'.w i).inWait = (s.w i).inWait) → s'.doPause = s.doPause → s'.paused = s.paused →
      (∀ j, s'.d ≠ .unpausePaused j) → NoSleep s' := by
    intro hw hd hp hpc
    exact ⟨fun i hi => absurd hi (hpc i), fun i hi => hsl i (hi.of_eq (hw i) (congrFun hd i) (congrFun hp i))⟩
  cases hd : s.d with
  | unpauseDo j =>
    simp only [driverStep, hd] at h
    split_ifs at h with hj
    · cases h
      refine ⟨fun i hi => ?_, fun i hi => ?_⟩
      · simp only [DPc.unpausePaused.injEq] at hi
        subst hi
        exact Function.update_self ..
      · by_cases hij : i = ⟨j, hj⟩
        · subst hij
          exact absurd hi.2.1 (by simp)
        · exact hsl i (hi.of_eq (s := s) rfl (Function.update_of_ne hij ..) rfl)
    · cases h
      exact hquiet (fun _ => rfl) rfl rfl (by simp)
  | unpausePaused j =>
    simp only [driverStep, hd] at h
    split_ifs at h with hj
    cases h
    refine ⟨fun i hi => (by cases hi), fun i hi => ?_⟩
    by_cases hij : i = ⟨j, hj⟩
    · -- its `do_pause` was cleared one step before
      subst hij
      exact absurd (hi.2.1.symm.trans (hun ⟨j, hj⟩ hd)) (by simp)
    · exact hsl i (hi.of_eq (s := s) rfl rfl (Function.update_of_ne hij ..))
  | pause j =>
    simp only [driverStep, hd] at h
    split_ifs at h with hj
    · cases h
      refine ⟨fun i hi => (by cases hi), fun i hi => ?_⟩
      by_cases hij : i = ⟨j, hj⟩
      · subst hij
        exact absurd (hi.2.2.symm.trans (hc ⟨j, hj⟩ hd hi.1)) (by simp)
      · exact hsl i (hi.of_eq (s := s) rfl (Function.update_of_ne hij ..) rfl)
    · cases h
      exact hquiet (fun _ => rfl) rfl rfl (by simp)
  | resumeNotify | destroyNotify =>
    simp only [driverStep, hd] at h
    cases h
    exact hquiet (fun i => inWait_notifyAll _ _) rfl rfl (by simp)
  | idle | streaming | dead =>
    simp only [driverStep, hd] at h
    cases h
  | resumeNonBlock | forceFlush | flushNonBlock | destroyNonBlock =>
    simp only [driverStep, hd] at h
    cases h
    exact hquiet (fun _ => rfl) rfl rfl (by simp)
  | flushUnlock b =>
    simp only [driverStep, hd] at h
    cases h
    exact hquiet (fun _ => rfl) rfl rfl (by cases b <;> simp)
  | flushLock | flushWait | flushPred j | flushCheck j | stop j =>
    simp only [driverStep, hd] at h
    split_ifs at h <;> cases h <;> exact hquiet (fun _ => rfl) rfl rfl (by simp)

theorem step_noSleep {l : Label N} (hc : Woken s l) (hn : NoSleep s) (h : step s l = some s') : NoSleep s' := by
  cases l with
  | driver t => exact driverStep_noSleep hc hn h
  | worker i k =>
    have hframe := workerStep_frame h
    refine ⟨fun j hj => ?_, fun j hj => hn.awake j (workerStep_sleeps h hj)⟩
    rw [hframe.2.1]
    exact hn.unpausing j (hframe.1 ▸ hj)
  | wake i =>
    simp only [step] at h
    split_ifs at h with hw
    cases h
    refine ⟨hn.unpausing, fun j hj => hn.awake j (hj.of_eq (s := s) ?_ rfl rfl)⟩
    by_cases hji : j = i
    · subst hji
      simp [hw, WPc.inWait]
    · simp only [Function.update_of_ne hji]
  | processStreamUntil | prepQuery | destroy | endStream | insert node =>
    simp only [step] at h
    split_ifs at h
    cases h
    exact ⟨fun j hj => by first | cases hj | exact hn.unpausing j hj, hn.awake⟩
  | spill =>
    simp only [step] at h
    split at h
    · cases h
    · cases h
      exact ⟨hn.unpausing, hn.awake⟩

/-! ## The wait that never ends -/

/-- the driver is in the waiting loop and has not found worker i paused -/
def DPc.before (i : ℕ) : DPc → Prop
  | .flushLock | .flushPred _ | .flushWait => True
  | .flushCheck j => j ≤ i
  | .flushUnlock allPaused => allPaused = false
  | _ => False

/-- the driver waits for worker i, which sleeps -/
structure Stuck (s : St N) (i : Fin N) : Prop where
  place : s.d.before i
  sleeps : Sleeps s i
  alive : s.shutdown i = false

theorem driverStep_stuck {t : Bool} {i : Fin N} (hst : Stuck s i) (h : driverStep s t = some s') : Stuck s' i := by
  obtain ⟨hpl, hsl, hal⟩ := hst
  have hp := hsl.2.2
  cases hd : s.d with
  | flushLock | flushWait =>
    simp only [driverStep, hd] at h
    split_ifs at h
    cases h
    exact ⟨trivial, hsl, hal⟩
  | flushPred j =>
    simp only [driverStep, hd] at h
    split_ifs at h <;> cases h <;> exact ⟨by simp [DPc.before], hsl, hal⟩
  | flushCheck j =>
    rw [hd] at hpl
    simp only [driverStep, hd] at h
    split_ifs at h with hj hpj
    · cases h
      refine ⟨Nat.lt_of_le_of_ne hpl fun he => ?_, hsl, hal⟩
      subst he
      exact absurd (hpj.symm.trans hp) (by simp)
    · cases h
      exact ⟨rfl, hsl, hal⟩
    · exact absurd (lt_of_le_of_lt hpl i.isLt) hj
  | flushUnlock b =>
    rw [hd] at hpl
    subst hpl
    simp only [driverStep, hd] at h
    cases h
    exact ⟨trivial, hsl, hal⟩
  | idle | streaming | dead | unpauseDo j | unpausePaused j | pause j | resumeNotify | destroyNotify | resumeNonBlock
  | forceFlush | flushNonBlock | destroyNonBlock | stop j =>
    rw [hd] at hpl
    exact hpl.elim

theorem step_stuck {i : Fin N} {l : Label N} (hst : Stuck s i) (h : step s l = some s') : Stuck s' i := by
  have hidle : s.d ≠ .idle ∧ s.d ≠ .streaming := by
    have hpl := hst.place
    constructor <;> intro hd <;> rw [hd] at hpl <;> exact hpl
  cases l with
  | driver t => exact driverStep_stuck hst h
  | worker j k =>
    have hframe := workerStep_frame h
    refine ⟨hframe.1 ▸ hst.place, ⟨?_, hframe.2.1 ▸ hst.sleeps.2.1, ?_⟩, hframe.2.2.1 ▸ hst.alive⟩
    · by_cases hij : i = j
      · subst hij
        exact (workerStep_inWait h hst.sleeps.2.1 hst.alive hst.sleeps.1).1
      · rcases (workerStep_other h hij).2 with hw | hw
        · rw [hw]
          exact hst.sleeps.1
        · rw [hw, inWait_notifyAll]
          exact hst.sleeps.1
    · by_cases hij : i = j
      · subst hij
        rw [(workerStep_inWait h hst.sleeps.2.1 hst.alive hst.sleeps.1).2]
        exact hst.sleeps.2.2
      · rw [(workerStep_other h hij).1]
        exact hst.sleeps.2.2
  | wake j =>
    simp only [step] at h
    split_ifs at h with hw
    cases h
    refine ⟨hst.place, ⟨?_, hst.sleeps.2⟩, hst.alive⟩
    by_cases hij : i = j
    · subst hij
      simp [WPc.inWait]
    · simp only [Function.update_of_ne hij]
      exact hst.sleeps.1
  | processStreamUntil | prepQuery | destroy | endStream | insert node =>
    simp only [step] at h
    split_ifs at h with hd
    first | exact absurd hd hidle.1 | exact absurd hd hidle.2
  | spill =>
    simp only [step] at h
    split at h
    · cases h
    · cases h
      exact ⟨hst.place, hst.sleeps, hst.alive⟩

end step

/-- once the driver waits for a worker that sleeps, nothing any thread does ends that -/
theorem sleeps_forever {s t : St N} {i : Fin N} {ms : List (Label N)} (hst : Stuck s i) (hs : exec step s ms = some t) :
    Stuck t i := exec_invariant step (fun _ _ _ h hs => step_stuck h hs) hst hs

/-! ## Runs -/

/-- **No worker sleeps through a flush.** In every run in which each `pause()` of a flush finds its worker out of the
wait, or still counted as paused, there is never a worker in the wait with `do_pause` raised and `paused` cleared while
the driver is in the waiting loop of `flush_workers`. -/
theorem no_sleep {ls : List (Label N)} {s : St N} (hcond : Meets step Woken (init N) ls)
    (hs : exec step (init N) ls = some s) : ¬ (s.d.inLoop = true ∧ ∃ i, Sleeps s i) := by
  have h0 : NoSleep (init N) := ⟨fun i hi => (by cases hi), fun i hi => (by cases hi.1)⟩
  have h := exec_invariant_of_meets step (fun _ _ _ hn hl h => step_noSleep hl hn h) h0 hcond hs
  intro ⟨_, i, hi⟩
  exact h.awake i hi

/-- the only worker pauses for a first flush, is resumed and has left its wait before the second flush begins -/
def wokenRun : List (Label 1) :=
  List.flatten [[.prepQuery], drive 4, work (Fin.last 0) 8, drive 6, [.processStreamUntil], drive 5, work (Fin.last 0) 5,
    [.endStream, .prepQuery], drive 4]

theorem no_sleep_woken : ∃ s, exec step (init 1) wokenRun = some s ∧ s.d = .flushLock ∧
    ¬ (s.d.inLoop = true ∧ ∃ i, Sleeps s i) := by
  have hend : (exec step (init 1) wokenRun).map St.d = some .flushLock := by decide
  obtain ⟨s, hs, hd⟩ := Option.map_eq_some_iff.1 hend
  exact ⟨s, hs, hd, no_sleep (by decide) hs⟩

/-- the same, but the worker is notified of the resume and does not run before the second flush begins; then it evaluates
its predicate -/
def sleepRun : List (Label 1) :=
  List.flatten [[.prepQuery], drive 4, work (Fin.last 0) 8, drive 6, [.processStreamUntil], drive 5,
    [.endStream, .prepQuery], drive 4, work (Fin.last 0) 3]

/-- the second flush waits for a worker that sleeps, for ever -/
theorem flush_sleeps : ∃ s, exec step (init 1) sleepRun = some s ∧
    (s.d.inLoop = true ∧ s.w (Fin.last 0) = .waiting ∧ s.doPause (Fin.last 0) = true ∧ s.paused (Fin.last 0) = false) ∧
    ∀ ms t, exec step s ms = some t → t.d.before (Fin.last 0).val ∧ Sleeps t (Fin.last 0) := by
  have hend : (exec step (init 1) sleepRun).map (fun s => (s.d, s.w (Fin.last 0), s.doPause (Fin.last 0),
      s.paused (Fin.last 0), s.shutdown (Fin.last 0))) = some (.flushLock, .waiting, true, false, false) := by
    decide
  obtain ⟨s, hs, he⟩ := Option.map_eq_some_iff.1 hend
  simp only [Prod.mk.injEq] at he
  obtain ⟨hd, hw, hdo, hp, hsh⟩ := he
  have hst : Stuck s (Fin.last 0) := ⟨by rw [hd]; trivial, ⟨by rw [hw]; rfl, hdo, hp⟩, hsh⟩
  refine ⟨s, hs, ⟨by rw [hd]; rfl, hw, hdo, hp⟩, fun ms t ht => ?_⟩
  have h := sleeps_forever hst ht
  exact ⟨h.place, h.sleeps⟩

end GraphStreamingCC.Workers
