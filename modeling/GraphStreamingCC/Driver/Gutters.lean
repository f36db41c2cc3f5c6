/-
The pause protocol of the workers while copies are still in the gutters.

`Workers` begins where a batch has been made. What the gutters hold before that matters to the protocol only in one respect:
while it is not nothing, no flush has been finished. So the invariant of the workers is used with one more buffered data
node behind theirs (`St.behind`), as long as the gutters hold a copy. No step looks at it, but the end of `force_flush`.
-/
import GraphStreamingCC.Driver.Flush

namespace GraphStreamingCC.Workers

variable {N : ℕ} {s s' : St N} {i : Fin N} {k : ℕ} {b : List DataNode}

/-- these data nodes are buffered too -/
def St.behind (s : St N) (b : List DataNode) : St N := { s with buffered := s.buffered ++ b }

@[simp] theorem St.behind_nil (s : St N) : s.behind [] = s := by simp [St.behind]

/-! ## The steps do not look behind -/

theorem workerStep_behind (s : St N) (i : Fin N) (k : ℕ) (b : List DataNode) :
    workerStep (s.behind b) i k = (workerStep s i k).map fun s' => s'.behind b := by
  unfold St.behind
  cases hw : s.w i with
  | process batches =>
    cases batches with
    | nil => simp only [workerStep, hw, Option.map_some]
    | cons batch bs =>
      simp only [workerStep, hw]
      split_ifs <;> rfl
  | getData =>
    cases hk : s.queue[k]? with
    | some node => simp only [workerStep, hw, hk, Option.map_some]
    | none =>
      simp only [workerStep, hw, hk]
      split_ifs <;> rfl
  | _ =>
    simp only [workerStep, hw]
    (try split_ifs) <;> rfl

theorem driverStep_behind (b : List DataNode) (hd : s.d ≠ .forceFlush) (timeout : Bool) :
    driverStep (s.behind b) timeout = (driverStep s timeout).map fun s' => s'.behind b := by
  unfold St.behind
  cases hpc : s.d with
  | forceFlush => exact absurd hpc hd
  | _ =>
    simp only [driverStep, hpc]
    (try split_ifs) <;> rfl

/-- a step that has nothing to do with the buffered data nodes -/
def LooksAway (s : St N) : Label N → Prop
  | .insert _ | .spill => False
  | .driver _ => s.d ≠ .forceFlush
  | .processStreamUntil | .prepQuery | .destroy | .endStream | .worker .. | .wake _ => True

theorem step_behind (b : List DataNode) {l : Label N} (hl : LooksAway s l) :
    step (s.behind b) l = (step s l).map fun s' => s'.behind b := by
  cases l with
  | insert | spill => exact hl.elim
  | driver timeout => exact driverStep_behind b hl timeout
  | worker i k => exact workerStep_behind s i k b
  | processStreamUntil | prepQuery | destroy | endStream | wake =>
    unfold St.behind
    simp only [step]
    split_ifs <;> rfl

theorem Inv.step_behind (h : Inv (s.behind b)) {l : Label N} (hl : LooksAway s l) (hf : FreshFlush s l)
    (hs : step s l = some s') : Inv (s'.behind b) := by
  have hbehind : Workers.step (s.behind b) l = some (s'.behind b) := by
    rw [Workers.step_behind b hl, hs]
    rfl
  have hfresh : FreshFlush (s.behind b) l := by
    cases l <;> exact hf
  exact step_inv hfresh h hbehind

/-- what the gutters and the work queue do with the data nodes is no concern of the protocol, while something is buffered -/
theorem Inv.refill (h : Inv s) (hb : s.buffered ≠ []) {q b : List DataNode} {inserted : List UpdateBatch}
    (hc : Conserved { s with queue := q, buffered := b, inserted := inserted }) :
    Inv { s with queue := q, buffered := b, inserted := inserted } := by
  refine ⟨hc, h.alive, h.flag, h.asleep, ?_⟩
  have hphase : Phase { s with queue := q, buffered := b } s.d := h.phase.spill hb
  cases hd : s.d <;> rw [hd] at hphase <;> exact hphase

/-! ## Where batches are -/

/-- the batches that have been made and not been applied -/
def held (s : St N) : Multiset UpdateBatch := ∑ i, inProc (s.w i) + content s.queue + content s.buffered

theorem Inv.held_eq (h : Inv (s.behind b)) (hb : content b = 0) : (s.applied : Multiset UpdateBatch) + held s = s.inserted := by
  have hc := h.cons
  simp only [Conserved, St.behind, content_append, hb, add_zero] at hc
  rw [held, ← hc]
  abel

/-- a step that applies no batch and makes none -/
theorem held_congr (h : Inv (s.behind b)) (h' : Inv (s'.behind b)) (hb : content b = 0) (happlied : s'.applied = s.applied)
    (hinserted : s'.inserted = s.inserted) : held s' = held s := by
  have heq := h.held_eq hb
  have heq' := h'.held_eq hb
  rw [happlied, hinserted, ← heq] at heq'
  exact add_left_cancel heq'

/-- worker i is at a batch that it passes on -/
def WPc.passes : WPc → Bool
  | .process (b :: _) => 0 < b.updVec.length
  | _ => false

theorem workerStep_applied (hp : (s.w i).passes = false) (h : workerStep s i k = some s') : s'.applied = s.applied := by
  cases hw : s.w i with
  | getData =>
    simp only [workerStep, hw] at h
    split at h <;> (try split_ifs at h) <;> cases h <;> rfl
  | process batches =>
    cases batches with
    | nil =>
      simp only [workerStep, hw, Option.some.injEq] at h
      subst h
      rfl
    | cons batch bs =>
      rw [hw] at hp
      simp only [WPc.passes, decide_eq_false_iff_not] at hp
      simp only [workerStep, hw, if_neg hp, Option.some.injEq] at h
      subst h
      rfl
  | _ =>
    simp only [workerStep, hw] at h
    (try split_ifs at h) <;> cases h <;> rfl

/-- the callback of a batch completes -/
theorem workerStep_passed {batch : UpdateBatch} {bs : List UpdateBatch} (hw : s.w i = .process (batch :: bs))
    (hb : 0 < batch.updVec.length) (h : workerStep s i k = some s') :
    s' = { s with w := Function.update s.w i (.process bs), applied := s.applied ++ [batch] } := by
  simp only [workerStep, hw, if_pos hb, Option.some.injEq] at h
  exact h.symm

theorem held_passed {batch : UpdateBatch} {bs : List UpdateBatch} (hw : s.w i = .process (batch :: bs))
    (hb : 0 < batch.updVec.length) (h : workerStep s i k = some s') : held s = batch ::ₘ held s' := by
  rw [workerStep_passed hw hb h]
  have hsum := Threads.sum_update inProc s.w i (.process bs)
  have hown : inProc (s.w i) = batch ::ₘ inProc (.process bs) := by
    simp [hw, inProc, live, hb]
  rw [hown, ← Multiset.singleton_add, ← add_assoc] at hsum
  have hsum' := add_right_cancel hsum
  simp only [held]
  rw [← hsum', ← Multiset.singleton_add]
  abel

/-! ## The driver -/

/-- in `resume_workers`, or behind it -/
def DPc.resumes : DPc → Bool
  | .unpauseDo _ | .unpausePaused _ | .resumeNonBlock | .resumeNotify | .streaming => true
  | _ => false

/-- in `force_flush` or `flush_workers` -/
def DPc.flushes : DPc → Bool
  | .forceFlush | .flushNonBlock | .pause _ | .flushLock | .flushPred _ | .flushWait | .flushCheck _ | .flushUnlock _ => true
  | _ => false

theorem driverStep_resumes {timeout : Bool} (hd : s.d.resumes = true) (h : driverStep s timeout = some s') :
    s'.d.resumes = true := by
  cases hpc : s.d with
  | streaming =>
    simp only [driverStep, hpc] at h
    cases h
  | unpauseDo | unpausePaused | resumeNonBlock | resumeNotify =>
    simp only [driverStep, hpc] at h
    (try split_ifs at h) <;> cases h <;> rfl
  | _ =>
    rw [hpc] at hd
    cases hd

theorem driverStep_flushes {timeout : Bool} (hd : s.d.flushes = true) (h : driverStep s timeout = some s') :
    s.d ≠ .flushUnlock true ∧ s'.d.flushes = true ∨ s.d = .flushUnlock true ∧ s'.d = .idle := by
  cases hpc : s.d with
  | flushUnlock allPaused =>
    simp only [driverStep, hpc] at h
    cases h
    cases allPaused with
    | true => exact .inr ⟨rfl, rfl⟩
    | false => exact .inl ⟨by simp, rfl⟩
  | forceFlush | flushNonBlock | pause | flushLock | flushPred | flushWait | flushCheck =>
    simp only [driverStep, hpc] at h
    (try split_ifs at h) <;> cases h <;> exact .inl ⟨by simp, rfl⟩
  | _ =>
    rw [hpc] at hd
    cases hd

/-- the end of `flush_workers` -/
theorem driverStep_unlock {timeout : Bool} (hd : s.d = .flushUnlock true) (h : driverStep s timeout = some s') :
    s' = { s with flushLock := .free, d := .idle } := by
  simp only [driverStep, hd, if_true, Option.some.injEq] at h
  exact h.symm

theorem driverStep_frame {timeout : Bool} (h : driverStep s timeout = some s') : s'.applied = s.applied ∧
    s'.inserted = s.inserted ∧ (s'.w = s.w ∨ s'.w = notifyAll s.w) ∧ (s.buffered = [] → s'.buffered = []) := by
  cases hpc : s.d <;> simp only [driverStep, hpc] at h <;> (try split_ifs at h) <;> cases h <;>
    simp

/-! ## Behind a flush -/

/-- all workers sleep, and there is nothing to do -/
def Resting (s : St N) : Prop := (∀ i, Asleep s i) ∧ Empty s

theorem Resting.held (h : Resting (s.behind b)) (hinv : Inv (s.behind b)) : held s = 0 := by
  have hidle : ∀ i, inProc (s.w i) = 0 := by
    intro i
    rcases hinv.flag i (h.1 i).2 with hw | hw
    · simp only [St.behind] at hw
      cases hi : s.w i <;> rw [hi] at hw <;> first | rfl | cases hw
    · simp only [St.behind] at hw
      rw [hw]
      rfl
  have hq : s.queue = [] := h.2.1
  have hb : s.buffered = [] := (List.append_eq_nil_iff.1 h.2.2).1
  simp [Workers.held, hidle, hq, hb]

theorem Resting.nothing (h : Resting (s.behind b)) : b = [] := (List.append_eq_nil_iff.1 h.2.2).2

theorem Resting.mono (h : Resting s) (hs : Settles s s') : Resting s' := ⟨fun i => hs.asleep i (h.1 i), hs.empty h.2⟩

/-- a flush that has found all workers paused leaves them so -/
theorem Inv.resting (h : Inv s) (hd : s.d = .flushUnlock true) : Resting s := by
  have hphase := h.phase
  rw [hd] at hphase
  obtain ⟨hdraining, hpause, hpaused⟩ := hphase
  exact ⟨fun i => ⟨hpause i, hpaused i⟩, hdraining.empty hpaused⟩

end GraphStreamingCC.Workers
