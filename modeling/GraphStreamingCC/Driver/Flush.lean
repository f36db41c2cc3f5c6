/-
A flush loses no batch, as long as no worker pauses on a leftover observation.

A worker decides to pause in two steps: `get_data` returns false, and later it reads `do_pause`. `resume_workers` clears
the `do_pause` flags first and `non_block` last, so a worker that is awake early can still find the queue empty, and then
be slow: `leftover`. If every worker is in this position when the NEXT flush begins, they all pause without looking at
the queue again, and `flush_workers` returns while the queue still holds batches (`flush_loses_batch`).

`flush_complete`: in every run in which each `set_non_block(true)` of a flush finds the queue empty or at least one worker
without a leftover observation, `flush_workers` returns only when the queue is empty, the buffers are empty, no batch is
in progress, and the batches whose callback has completed are exactly the inserted ones, each once.
-/
import Mathlib.Algebra.Order.Group.Multiset
import GraphStreamingCC.Core.Threads
import GraphStreamingCC.Driver.Workers

namespace GraphStreamingCC.Workers

open Runs

variable {N : ℕ}

/-! ## Where batches are -/

/-- the batches in a list of data nodes -/
def content (q : List DataNode) : Multiset UpdateBatch := (q.map fun node => (live node : Multiset UpdateBatch)).sum

/-- the batches a worker has taken and not yet passed on -/
def inProc : WPc → Multiset UpdateBatch
  | .process bs => live bs
  | _ => 0

@[simp] theorem content_nil : content [] = 0 := rfl

@[simp] theorem content_cons (node : DataNode) (q : List DataNode) : content (node :: q) = live node + content q := by
  simp [content]

@[simp] theorem content_append (q q' : List DataNode) : content (q ++ q') = content q + content q' := by
  simp [content]

theorem content_eraseIdx {q : List DataNode} {k : ℕ} {node : DataNode} (h : q[k]? = some node) :
    live node + content (q.eraseIdx k) = content q := by
  obtain ⟨hk, rfl⟩ := List.getElem?_eq_some_iff.1 h
  have := (List.getElem_cons_eraseIdx_perm hk).map fun node => (live node : Multiset UpdateBatch)
  simpa [content] using this.sum_eq

@[simp] theorem inProc_notifyAll (w : Fin N → WPc) (j : Fin N) : inProc (notifyAll w j) = inProc (w j) := by
  unfold notifyAll
  split_ifs with h
  · rw [h]; rfl
  · rfl

/-- every inserted batch is applied, in the hands of a worker, queued, or buffered -/
def Conserved (s : St N) : Prop :=
  (s.applied : Multiset UpdateBatch) + ∑ i, inProc (s.w i) + content s.queue + content s.buffered = s.inserted

/-! ## What is known of the workers -/

/-- worker i is not asked to pause and is not on its way into the wait -/
def Calm (s : St N) (i : Fin N) : Prop := s.doPause i = false ∧ s.w i ≠ .lock ∧ s.w i ≠ .setPaused

/-- worker i is calm and not counted as paused -/
def Awake (s : St N) (i : Fin N) : Prop := Calm s i ∧ s.paused i = false

/-- worker i sleeps in its wait -/
def Asleep (s : St N) (i : Fin N) : Prop := s.doPause i = true ∧ s.paused i = true

/-- worker i can be counted as paused without calling `get_data` again -/
def Ready (s : St N) (i : Fin N) : Prop :=
  s.w i = .testShutdown ∨ s.w i = .testPause ∨ s.w i = .lock ∨ s.w i = .setPaused ∨ s.paused i = true

/-- worker i holds the observation "queue empty" of an earlier `get_data` and has not yet read `do_pause` -/
def leftover (pc : WPc) : Bool := pc = .testShutdown ∨ pc = .testPause

/-- there is nothing left to do -/
def Empty (s : St N) : Prop := s.queue = [] ∧ s.buffered = []

/-- between two flushes: all workers are awake, or all still sleep and there is nothing to do -/
def Rest (s : St N) : Prop := (∀ i, Awake s i) ∨ (∀ i, Asleep s i) ∧ Empty s

/-- within a flush: nothing is buffered, and the queue is empty or some worker has still to look at it -/
def Draining (s : St N) : Prop := s.buffered = [] ∧ (s.queue = [] ∨ ∃ i, ¬ Ready s i)

/-- what holds at each place of the driver -/
def Phase (s : St N) : DPc → Prop
  | .idle | .forceFlush => Rest s
  | .unpauseDo j =>
    (∀ i : Fin N, i.val < j → Awake s i) ∧
      ((∀ i : Fin N, j ≤ i.val → Awake s i) ∨ (∀ i : Fin N, j ≤ i.val → Asleep s i) ∧ Empty s)
  | .unpausePaused j =>
    (∀ i : Fin N, i.val < j → Awake s i) ∧ (∀ i : Fin N, i.val = j → Calm s i) ∧
      ((∀ i : Fin N, j < i.val → Awake s i) ∨ (∀ i : Fin N, j < i.val → Asleep s i) ∧ Empty s)
  | .resumeNonBlock | .resumeNotify | .streaming => ∀ i, Awake s i
  | .flushNonBlock => Rest s ∧ s.buffered = []
  | .pause j =>
    Draining s ∧ (∀ i : Fin N, j ≤ i.val → Awake s i ∨ Asleep s i) ∧ ∀ i : Fin N, i.val < j → s.doPause i = true
  | .flushLock | .flushWait | .flushUnlock false => Draining s ∧ ∀ i, s.doPause i = true
  | .flushPred j | .flushCheck j =>
    Draining s ∧ (∀ i, s.doPause i = true) ∧ ∀ i : Fin N, i.val < j → s.paused i = true
  | .flushUnlock true => Draining s ∧ (∀ i, s.doPause i = true) ∧ ∀ i, s.paused i = true
  | .destroyNonBlock | .stop _ | .destroyNotify | .dead => True

/-- the driver holds `flush_lock` -/
def DPc.holds : DPc → Bool
  | .flushPred _ | .flushCheck _ | .flushUnlock _ => true
  | _ => false

/-- the driver is being destroyed -/
def DPc.dying : DPc → Bool
  | .destroyNonBlock | .stop _ | .destroyNotify | .dead => true
  | _ => false

/-- the places of a worker whose `paused` flag was raised and not yet taken back by the worker itself -/
def WPc.inWait : WPc → Bool
  | .notifyPaused | .predPause | .predShutdown | .waiting | .relock => true
  | _ => false

structure Inv (s : St N) : Prop where
  cons : Conserved s
  alive : s.d.dying = false → ∀ i, s.shutdown i = false
  flag : ∀ i, s.paused i = true → (s.w i).inWait = true ∨ s.w i = .clearPaused
  asleep : s.d.dying = false → ∀ i, Asleep s i → (s.w i).inWait = true
  phase : Phase s s.d

theorem inv_init (N : ℕ) : Inv (init N) where
  cons := by simp [Conserved, init, inProc]
  alive _ _ := rfl
  flag i h := by cases h
  asleep _ i h := by cases h.1
  phase := Or.inl fun i => ⟨⟨rfl, by simp [init], by simp [init]⟩, rfl⟩

/-! ## Steps of the workers -/

section worker

variable {s s' : St N} {i : Fin N} {k : ℕ}

theorem notifyAll_eq_iff {w : Fin N → WPc} {j : Fin N} (pc : WPc) (h : pc.inWait = false) :
    notifyAll w j = pc ↔ w j = pc := by
  unfold notifyAll
  split_ifs with hj
  · constructor <;> rintro rfl <;> simp_all [WPc.inWait]
  · rfl

@[simp] theorem inWait_notifyAll (w : Fin N → WPc) (j : Fin N) : (notifyAll w j).inWait = (w j).inWait := by
  unfold notifyAll
  split_ifs with hj
  · rw [hj]; rfl
  · rfl

/-- what a worker leaves alone -/
theorem workerStep_frame (h : workerStep s i k = some s') :
    s'.d = s.d ∧ s'.doPause = s.doPause ∧ s'.shutdown = s.shutdown ∧ s'.buffered = s.buffered ∧
      s'.inserted = s.inserted ∧ (s.queue = [] → s'.queue = []) := by
  unfold workerStep at h
  split at h <;> (try split at h) <;> (try split at h) <;> cases h <;> simp_all

/-- another worker is at most notified -/
theorem workerStep_other (h : workerStep s i k = some s') {j : Fin N} (hj : j ≠ i) :
    s'.paused j = s.paused j ∧ (s'.w j = s.w j ∨ s'.w j = notifyAll s.w j) := by
  unfold workerStep at h
  split at h <;> (try split at h) <;> (try split at h) <;> cases h <;> simp [Function.update_of_ne hj]

theorem workerStep_calm (h : workerStep s i k = some s') (hi : Calm s i) :
    Calm s' i ∧ (s.paused i = false → s'.paused i = false) := by
  obtain ⟨hp, hl, hs⟩ := hi
  unfold workerStep at h
  split at h <;> (try split at h) <;> (try split at h) <;> cases h <;> simp_all [Calm]

/-- a worker that sleeps goes on sleeping -/
theorem workerStep_inWait (h : workerStep s i k = some s') (hp : s.doPause i = true) (hs : s.shutdown i = false)
    (hw : (s.w i).inWait = true) : (s'.w i).inWait = true ∧ s'.paused i = s.paused i := by
  unfold workerStep at h
  split at h <;> (try split at h) <;> (try split at h) <;> cases h <;> simp_all [WPc.inWait]

/-- a worker that could pause without a look at the queue already could before, or the queue is empty -/
theorem workerStep_ready (h : workerStep s i k = some s') (hr : Ready s' i) : Ready s i ∨ s.queue = [] := by
  unfold workerStep at h
  split at h <;> (try split at h) <;> (try split at h) <;> cases h <;> simp_all [Ready]

theorem workerStep_flag (h : workerStep s i k = some s')
    (hf : s.paused i = true → (s.w i).inWait = true ∨ s.w i = .clearPaused) (hp : s'.paused i = true) :
    (s'.w i).inWait = true ∨ s'.w i = .clearPaused := by
  unfold workerStep at h
  split at h <;> (try split at h) <;> (try split at h) <;> cases h <;> simp_all [WPc.inWait]

/-- a worker leaves its wait only when it may -/
theorem workerStep_clearPaused (h : workerStep s i k = some s') (hw : s'.w i = .clearPaused) :
    s.doPause i = false ∨ s.shutdown i = true := by
  unfold workerStep at h
  split at h <;> (try split at h) <;> (try split at h) <;> cases h <;> simp_all

/-- a batch that leaves the queue is in the worker's hands until its callback has completed -/
theorem workerStep_hands (h : workerStep s i k = some s') :
    (s'.applied : Multiset UpdateBatch) + inProc (s'.w i) + content s'.queue =
      s.applied + inProc (s.w i) + content s.queue := by
  unfold workerStep at h
  split at h
  next hw =>
    rw [hw]
    split at h <;> (try split at h) <;> cases h
    next hk => simp only [Function.update_self, inProc, ← content_eraseIdx hk]; abel
    next => simp [inProc]
  next hw => cases h; simp [hw, inProc, live]
  next b bs hw =>
    split at h <;> cases h <;> rename_i hb
    · simp only [hw, Function.update_self, inProc, live, List.filter_cons, decide_eq_true hb, if_true,
        ← Multiset.coe_add, ← Multiset.cons_coe, Multiset.coe_nil, ← Multiset.singleton_add]
      abel
    · simp [hw, inProc, live, hb]
  all_goals
    rename_i hw
    (try split at h) <;> cases h <;> simp [hw, inProc]

theorem workerStep_cons (h : workerStep s i k = some s') (hc : Conserved s) : Conserved s' := by
  obtain ⟨-, -, -, hb, hi, -⟩ := workerStep_frame h
  have hsum := Threads.sum_move (f := fun j => inProc (s.w j)) (g := fun j => inProc (s'.w j)) (i := i) fun j hj => by
    rcases (workerStep_other h hj).2 with hw | hw <;> rw [hw]
    exact inProc_notifyAll _ _
  have hown := workerStep_hands h
  unfold Conserved at *
  rw [hb, hi, ← hc]
  refine add_right_cancel (b := inProc (s.w i)) ?_
  calc _ = (s'.applied : Multiset UpdateBatch) + (∑ j, inProc (s'.w j) + inProc (s.w i)) + content s'.queue
          + content s.buffered := by abel
    _ = ((s'.applied : Multiset UpdateBatch) + inProc (s'.w i) + content s'.queue) + ∑ j, inProc (s.w j)
          + content s.buffered := by rw [hsum]; abel
    _ = _ := by rw [hown]; abel

end worker

/-! ## One step -/

section step

variable {s s' : St N}

/-- what holds of the workers only gets better: nothing a worker does, and no wake-up, spoils the driver's view -/
structure Settles (s s' : St N) : Prop where
  doPause : s'.doPause = s.doPause
  buffered : s'.buffered = s.buffered
  queue : s.queue = [] → s'.queue = []
  calm : ∀ i, Calm s i → Calm s' i
  awake : ∀ i, Awake s i → Awake s' i
  asleep : ∀ i, Asleep s i → Asleep s' i
  ready : ∀ i, Ready s' i → Ready s i ∨ s.queue = []

theorem Settles.empty (h : Settles s s') (he : Empty s) : Empty s' := ⟨h.queue he.1, h.buffered.trans he.2⟩

theorem Settles.draining (h : Settles s s') (hd : Draining s) : Draining s' := by
  obtain ⟨hb, hq | ⟨i, hi⟩⟩ := hd
  · exact ⟨h.buffered.trans hb, .inl (h.queue hq)⟩
  · by_cases hq : s.queue = []
    · exact ⟨h.buffered.trans hb, .inl (h.queue hq)⟩
    · exact ⟨h.buffered.trans hb, .inr ⟨i, fun hr => (h.ready i hr).elim hi hq⟩⟩

theorem Settles.rest (h : Settles s s') : Rest s → Rest s'
  | .inl ha => .inl fun i => h.awake i (ha i)
  | .inr ⟨ha, he⟩ => .inr ⟨fun i => h.asleep i (ha i), h.empty he⟩

theorem Settles.paused (h : Settles s s') {i : Fin N} (hd : ∀ i, s.doPause i = true) (hp : s.paused i = true) :
    s'.paused i = true := (h.asleep i ⟨hd i, hp⟩).2

theorem Phase.mono (h : Settles s s') {d : DPc} (hp : Phase s d) : Phase s' d := by
  have hdo : (∀ i, s.doPause i = true) → ∀ i, s'.doPause i = true := fun hd => by rw [h.doPause]; exact hd
  cases d with
  | idle | forceFlush => exact h.rest hp
  | unpauseDo j =>
    refine ⟨fun i hi => h.awake i (hp.1 i hi), hp.2.imp (fun ha i hi => h.awake i (ha i hi)) ?_⟩
    exact fun ha => ⟨fun i hi => h.asleep i (ha.1 i hi), h.empty ha.2⟩
  | unpausePaused j =>
    refine ⟨fun i hi => h.awake i (hp.1 i hi), fun i hi => h.calm i (hp.2.1 i hi),
      hp.2.2.imp (fun ha i hi => h.awake i (ha i hi)) ?_⟩
    exact fun ha => ⟨fun i hi => h.asleep i (ha.1 i hi), h.empty ha.2⟩
  | resumeNonBlock | resumeNotify | streaming => exact fun i => h.awake i (hp i)
  | flushNonBlock => exact ⟨h.rest hp.1, h.buffered.trans hp.2⟩
  | pause j =>
    exact ⟨h.draining hp.1, fun i hi => (hp.2.1 i hi).imp (h.awake i) (h.asleep i),
      fun i hi => by rw [h.doPause]; exact hp.2.2 i hi⟩
  | flushLock | flushWait => exact ⟨h.draining hp.1, hdo hp.2⟩
  | flushPred j | flushCheck j =>
    exact ⟨h.draining hp.1, hdo hp.2.1, fun i hi => h.paused hp.2.1 (hp.2.2 i hi)⟩
  | flushUnlock allPaused =>
    cases allPaused with
    | false => exact ⟨h.draining hp.1, hdo hp.2⟩
    | true => exact ⟨h.draining hp.1, hdo hp.2.1, fun i => h.paused hp.2.1 (hp.2.2 i)⟩
  | destroyNonBlock | stop j | destroyNotify | dead => trivial

/-- a step that at most wakes waiting workers -/
theorem settles_of_wake (hd : s'.doPause = s.doPause) (hb : s'.buffered = s.buffered) (hq : s'.queue = s.queue)
    (hp : s'.paused = s.paused) (hw : ∀ i, s'.w i = s.w i ∨ s.w i = .waiting ∧ s'.w i = .relock) : Settles s s' := by
  have hcalm : ∀ i, Calm s i → Calm s' i := by
    rintro i ⟨h, hl, hs⟩
    rcases hw i with h' | ⟨-, h'⟩ <;> exact ⟨hd ▸ h, by simp [h', hl], by simp [h', hs]⟩
  refine ⟨hd, hb, fun h => hq.trans h, hcalm, fun i h => ⟨hcalm i h.1, hp ▸ h.2⟩, fun i h => ⟨hd ▸ h.1, hp ▸ h.2⟩, ?_⟩
  intro i h
  rcases hw i with h' | ⟨-, h'⟩ <;> simp only [Ready, h', hp] at h ⊢ <;> simp_all

theorem notifyAll_cases (w : Fin N → WPc) (i : Fin N) :
    notifyAll w i = w i ∨ w i = .waiting ∧ notifyAll w i = .relock := by
  unfold notifyAll
  split_ifs with h
  · exact .inr ⟨h, rfl⟩
  · exact .inl rfl

theorem settles_of_worker {i : Fin N} {k : ℕ} (h : workerStep s i k = some s')
    (hs : ∀ j, Asleep s j → (s.w j).inWait = true ∧ s.shutdown j = false) : Settles s s' := by
  obtain ⟨-, hdo, -, hb, -, hq⟩ := workerStep_frame h
  have hother : ∀ j, j ≠ i → s'.paused j = s.paused j ∧ (s'.w j = s.w j ∨ s.w j = .waiting ∧ s'.w j = .relock) := by
    intro j hj
    obtain ⟨hp, hw⟩ := workerStep_other h hj
    refine ⟨hp, hw.elim .inl fun hw => ?_⟩
    rw [hw]
    exact notifyAll_cases _ _
  have hcalm : ∀ j, Calm s j → Calm s' j := by
    rintro j hj
    by_cases hji : j = i
    · subst hji
      exact (workerStep_calm h hj).1
    · rcases (hother j hji).2 with h' | ⟨-, h'⟩ <;> exact ⟨hdo ▸ hj.1, by simp [h', hj.2.1], by simp [h', hj.2.2]⟩
  refine ⟨hdo, hb, hq, hcalm, fun j hj => ⟨hcalm j hj.1, ?_⟩, fun j hj => ⟨hdo ▸ hj.1, ?_⟩, fun j hj => ?_⟩
  · by_cases hji : j = i
    · subst hji
      exact (workerStep_calm h hj.1).2 hj.2
    · rw [(hother j hji).1, hj.2]
  · by_cases hji : j = i
    · subst hji
      rw [(workerStep_inWait h hj.1 (hs j hj).2 (hs j hj).1).2, hj.2]
    · rw [(hother j hji).1, hj.2]
  · by_cases hji : j = i
    · subst hji
      exact workerStep_ready h hj
    · rcases (hother j hji).2 with h' | ⟨-, h'⟩ <;> simp only [Ready, h', (hother j hji).1] at hj ⊢ <;> simp_all

/-- the state before a flush sets `non_block`: the queue is empty, or some worker has to look at it again -/
def Fresh (s : St N) : Prop := s.queue = [] ∨ ∃ i, leftover (s.w i) = false

instance (s : St N) : Decidable (Fresh s) := inferInstanceAs (Decidable (_ ∨ _))

/-- the condition on a run: each flush begins in a fresh state -/
def FreshFlush (s : St N) : Label N → Prop
  | .driver _ => s.d = .flushNonBlock → Fresh s
  | _ => True

instance (s : St N) : (l : Label N) → Decidable (FreshFlush s l)
  | .driver _ => inferInstanceAs (Decidable (s.d = .flushNonBlock → Fresh s))
  | .processStreamUntil | .prepQuery | .destroy | .insert _ | .spill | .endStream | .worker _ _ | .wake _ =>
    inferInstanceAs (Decidable True)

theorem draining_of_rest (hr : Rest s) (hb : s.buffered = []) (hf : Fresh s) : Draining s := by
  refine ⟨hb, ?_⟩
  rcases hr with ha | ⟨-, hq, -⟩
  · refine hf.imp id fun ⟨i, hi⟩ => ⟨i, ?_⟩
    simp only [leftover, decide_eq_false_iff_not, not_or] at hi
    simp [Ready, hi, (ha i).1.2, (ha i).2]
  · exact .inl hq

/-- the driver moves on without touching the workers' flags or the batches -/
theorem Inv.goto (h : Inv s) {d' : DPc} {l : Holder N} {b : Bool} (hdy : d'.dying = false → s.d.dying = false)
    (hp : Phase s d') : Inv { s with nonBlock := b, flushLock := l, d := d' } where
  cons := h.cons
  alive hd := h.alive (hdy hd)
  flag := h.flag
  asleep hd := h.asleep (hdy hd)
  phase := Phase.mono (settles_of_wake rfl rfl rfl rfl fun _ => .inl rfl) hp

/-- the driver notifies all waiting workers -/
theorem Inv.notify (h : Inv s) {d' : DPc} (hdy : d'.dying = false → s.d.dying = false) (hp : Phase s d') :
    Inv { s with w := notifyAll s.w, d := d' } := by
  have hset : Settles s { s with w := notifyAll s.w, d := d' } :=
    settles_of_wake rfl rfl rfl rfl (notifyAll_cases s.w)
  refine ⟨?_, fun hd => h.alive (hdy hd), fun i hi => ?_, fun hd i hi => ?_, Phase.mono hset hp⟩
  · simpa only [Conserved, inProc_notifyAll] using h.cons
  · simp only [inWait_notifyAll, notifyAll_eq_iff .clearPaused rfl]
    exact h.flag i hi
  · simp only [inWait_notifyAll]
    exact h.asleep (hdy hd) i hi

/-- a spurious wake-up -/
theorem Inv.wake (h : Inv s) {i : Fin N} (hw : s.w i = .waiting) :
    Inv { s with w := Function.update s.w i .relock } := by
  have hor : ∀ j, Function.update s.w i .relock j = s.w j ∨
      s.w j = .waiting ∧ Function.update s.w i .relock j = .relock := by
    intro j
    by_cases hj : j = i
    · subst hj
      exact .inr ⟨hw, Function.update_self ..⟩
    · exact .inl (Function.update_of_ne hj ..)
  have hset : Settles s { s with w := Function.update s.w i .relock } := settles_of_wake rfl rfl rfl rfl hor
  refine ⟨?_, h.alive, fun j hj => ?_, fun hd j hj => ?_, Phase.mono hset h.phase⟩
  · have hin : ∀ j, inProc (Function.update s.w i .relock j) = inProc (s.w j) := by
      intro j
      rcases hor j with hj | ⟨hj, hj'⟩
      · rw [hj]
      · rw [hj, hj']; rfl
    simpa only [Conserved, hin] using h.cons
  · rcases hor j with hj' | ⟨-, hj'⟩ <;> simp only [hj']
    · exact h.flag j hj
    · exact .inl rfl
  · rcases hor j with hj' | ⟨-, hj'⟩ <;> simp only [hj']
    · exact h.asleep hd j hj
    · rfl

/-- `unpause` of worker j: `do_pause = false` -/
theorem Inv.unpauseDo (h : Inv s) {j : ℕ} (hj : j < N) (hd : s.d = .unpauseDo j) :
    Inv { s with doPause := Function.update s.doPause ⟨j, hj⟩ false, d := .unpausePaused j } := by
  have hph := h.phase
  rw [hd] at hph
  have hne : ∀ i : Fin N, i.val ≠ j → Function.update s.doPause ⟨j, hj⟩ false i = s.doPause i := fun i hi =>
    Function.update_of_ne (fun h => hi (congrArg Fin.val h)) _ _
  have hdo : ∀ i, Function.update s.doPause ⟨j, hj⟩ false i = true → s.doPause i = true := by
    intro i hi
    by_cases hij : i.val = j
    · subst hij; simp at hi
    · rwa [hne i hij] at hi
  have hdy : s.d.dying = false := by rw [hd]; rfl
  refine ⟨h.cons, fun _ => h.alive hdy, h.flag, fun _ i hi => h.asleep hdy i ⟨hdo i hi.1, hi.2⟩, ?_, ?_, ?_⟩
  · rintro i hi
    obtain ⟨⟨h₁, h₂⟩, h₃⟩ := hph.1 i hi
    exact ⟨⟨(hne i hi.ne).trans h₁, h₂⟩, h₃⟩
  · rintro i rfl
    refine ⟨Function.update_self .., ?_⟩
    rcases hph.2 with ha | ⟨ha, -⟩
    · exact (ha i le_rfl).1.2
    · have hw := h.asleep hdy i (ha i le_rfl)
      constructor <;> intro hc <;> rw [hc] at hw <;> cases hw
  · refine hph.2.imp (fun ha i hi => ?_) fun ha => ⟨fun i hi => ?_, ha.2⟩
    · obtain ⟨⟨h₁, h₂⟩, h₃⟩ := ha i hi.le
      exact ⟨⟨(hne i hi.ne').trans h₁, h₂⟩, h₃⟩
    · obtain ⟨h₁, h₂⟩ := ha.1 i hi.le
      exact ⟨(hne i hi.ne').trans h₁, h₂⟩

/-- `unpause` of worker j: `paused = false` -/
theorem Inv.unpausePaused (h : Inv s) {j : ℕ} (hj : j < N) (hd : s.d = .unpausePaused j) :
    Inv { s with paused := Function.update s.paused ⟨j, hj⟩ false, d := .unpauseDo (j + 1) } := by
  have hph := h.phase
  rw [hd] at hph
  have hne : ∀ i : Fin N, i.val ≠ j → Function.update s.paused ⟨j, hj⟩ false i = s.paused i := fun i hi =>
    Function.update_of_ne (fun h => hi (congrArg Fin.val h)) _ _
  have hpd : ∀ i, Function.update s.paused ⟨j, hj⟩ false i = true → s.paused i = true := by
    intro i hi
    by_cases hij : i.val = j
    · subst hij; simp at hi
    · rwa [hne i hij] at hi
  have hdy : s.d.dying = false := by rw [hd]; rfl
  refine ⟨h.cons, fun _ => h.alive hdy, fun i hi => h.flag i (hpd i hi),
    fun _ i hi => h.asleep hdy i ⟨hi.1, hpd i hi.2⟩, ?_, ?_⟩
  · intro i hi
    rcases Nat.lt_succ_iff_lt_or_eq.1 hi with hi | rfl
    · exact ⟨(hph.1 i hi).1, (hne i hi.ne).trans (hph.1 i hi).2⟩
    · exact ⟨hph.2.1 i rfl, Function.update_self ..⟩
  · refine hph.2.2.imp (fun ha i hi => ?_) fun ha => ⟨fun i hi => ?_, ha.2⟩
    · exact ⟨(ha i hi).1, (hne i (Nat.ne_of_gt hi)).trans (ha i hi).2⟩
    · exact ⟨(ha.1 i hi).1, (hne i (Nat.ne_of_gt hi)).trans (ha.1 i hi).2⟩

/-- `pause` of worker j -/
theorem Inv.pause (h : Inv s) {j : ℕ} (hj : j < N) (hd : s.d = .pause j) :
    Inv { s with doPause := Function.update s.doPause ⟨j, hj⟩ true, d := .pause (j + 1) } := by
  have hph := h.phase
  rw [hd] at hph
  have hne : ∀ i : Fin N, i.val ≠ j → Function.update s.doPause ⟨j, hj⟩ true i = s.doPause i := fun i hi =>
    Function.update_of_ne (fun h => hi (congrArg Fin.val h)) _ _
  have hdy : s.d.dying = false := by rw [hd]; rfl
  refine ⟨h.cons, fun _ => h.alive hdy, h.flag, fun _ i hi => h.asleep hdy i ⟨?_, hi.2⟩, hph.1, ?_, ?_⟩
  · by_cases hij : i.val = j
    · rcases hph.2.1 i hij.ge with ha | ha
      · exact absurd hi.2 (by simp [ha.2])
      · exact ha.1
    · rw [← hne i hij]; exact hi.1
  · rintro i hi
    have hij : i.val ≠ j := by omega
    refine (hph.2.1 i (by omega)).imp (fun ⟨⟨h₁, h₂⟩, h₃⟩ => ⟨⟨(hne i hij).trans h₁, h₂⟩, h₃⟩) ?_
    exact fun ⟨h₁, h₂⟩ => ⟨(hne i hij).trans h₁, h₂⟩
  · rintro i hi
    rcases Nat.lt_succ_iff_lt_or_eq.1 hi with hi | rfl
    · exact (hne i hi.ne).trans (hph.2.2 i hi)
    · exact Function.update_self ..

theorem Inv.forceFlush (h : Inv s) (hd : s.d = .forceFlush) :
    Inv { s with queue := s.queue ++ s.buffered, buffered := [], d := .flushNonBlock } := by
  have hph := h.phase
  rw [hd] at hph
  have hdy : s.d.dying = false := by rw [hd]; rfl
  refine ⟨?_, fun _ => h.alive hdy, h.flag, fun _ => h.asleep hdy, hph.imp id fun ha => ⟨ha.1, ?_, rfl⟩, rfl⟩
  · have hc := h.cons
    simp only [Conserved, content_append, content_nil, add_zero] at hc ⊢
    rw [← hc]
    abel
  · simp [ha.2.1, ha.2.2]

/-- a flush that has found all workers paused has found the queue empty -/
theorem Draining.empty (h : Draining s) (hp : ∀ i, s.paused i = true) : Empty s :=
  ⟨h.2.elim id fun ⟨i, hi⟩ => absurd (.inr (.inr (.inr (.inr (hp i))))) hi, h.1⟩

theorem driverStep_inv {t : Bool} (hf : FreshFlush s (.driver t)) (h : Inv s) (hs : driverStep s t = some s') :
    Inv s' := by
  have hph := h.phase
  have h0 : ∀ {P : Fin N → Prop} (i : Fin N), i.val < 0 → P i := fun i hi => absurd hi (Nat.not_lt_zero _)
  have hsucc : ∀ {j : ℕ} (hj : j < N), s.paused ⟨j, hj⟩ = true → (∀ i : Fin N, i.val < j → s.paused i = true) →
      ∀ i : Fin N, i.val < j + 1 → s.paused i = true := by
    intro j hj hp hlt i hi
    rcases Nat.lt_succ_iff_lt_or_eq.1 hi with hi | rfl
    · exact hlt i hi
    · exact hp
  cases hd : s.d with
  | idle | streaming | dead => simp [driverStep, hd] at hs
  | unpauseDo j =>
    simp only [driverStep, hd] at hs hph
    split_ifs at hs with hj <;> cases hs
    · exact h.unpauseDo hj hd
    · exact h.goto (by simp [hd, DPc.dying]) fun i => hph.1 i (by omega)
  | unpausePaused j =>
    simp only [driverStep, hd] at hs
    split_ifs at hs with hj
    cases hs
    exact h.unpausePaused hj hd
  | resumeNonBlock =>
    simp only [driverStep, hd] at hs hph
    cases hs
    exact h.goto (by simp [hd, DPc.dying]) hph
  | resumeNotify =>
    simp only [driverStep, hd] at hs hph
    cases hs
    exact h.notify (by simp [hd, DPc.dying]) hph
  | forceFlush =>
    simp only [driverStep, hd] at hs
    cases hs
    exact h.forceFlush hd
  | flushNonBlock =>
    simp only [driverStep, hd] at hs hph
    cases hs
    refine h.goto (by simp [hd, DPc.dying]) ⟨draining_of_rest hph.1 hph.2 (hf hd), fun i _ => ?_, h0⟩
    exact hph.1.imp (fun ha => ha i) fun ha => ha.1 i
  | pause j =>
    simp only [driverStep, hd] at hs hph
    split_ifs at hs with hj <;> cases hs
    · exact h.pause hj hd
    · exact h.goto (by simp [hd, DPc.dying]) ⟨hph.1, fun i => hph.2.2 i (by omega)⟩
  | flushLock | flushWait =>
    simp only [driverStep, hd] at hs hph
    split_ifs at hs
    cases hs
    exact h.goto (by simp [hd, DPc.dying]) ⟨hph.1, hph.2, h0⟩
  | flushPred j =>
    simp only [driverStep, hd] at hs hph
    split_ifs at hs with hj hp ht <;> cases hs
    · exact h.goto (by simp [hd, DPc.dying]) ⟨hph.1, hph.2.1, hsucc hj hp hph.2.2⟩
    · exact h.goto (by simp [hd, DPc.dying]) ⟨hph.1, hph.2.1, h0⟩
    · exact h.goto (by simp [hd, DPc.dying]) ⟨hph.1, hph.2.1⟩
    · exact h.goto (by simp [hd, DPc.dying]) ⟨hph.1, hph.2.1, h0⟩
  | flushCheck j =>
    simp only [driverStep, hd] at hs hph
    split_ifs at hs with hj hp <;> cases hs
    · exact h.goto (by simp [hd, DPc.dying]) ⟨hph.1, hph.2.1, hsucc hj hp hph.2.2⟩
    · exact h.goto (by simp [hd, DPc.dying]) ⟨hph.1, hph.2.1⟩
    · exact h.goto (by simp [hd, DPc.dying]) ⟨hph.1, hph.2.1, fun i => hph.2.2 i (by omega)⟩
  | flushUnlock allPaused =>
    simp only [driverStep, hd] at hs hph
    cases hs
    cases allPaused with
    | false => exact h.goto (by simp [hd, DPc.dying]) hph
    | true =>
      exact h.goto (by simp [hd, DPc.dying]) (.inr ⟨fun i => ⟨hph.2.1 i, hph.2.2 i⟩, Draining.empty hph.1 hph.2.2⟩)
  | destroyNonBlock =>
    simp only [driverStep, hd] at hs
    cases hs
    exact h.goto (by simp [DPc.dying]) trivial
  | stop j =>
    simp only [driverStep, hd] at hs
    split_ifs at hs <;> cases hs
    · exact ⟨h.cons, fun hdy => (by cases hdy), h.flag, fun hdy => (by cases hdy), trivial⟩
    · exact h.goto (by simp [DPc.dying]) trivial
  | destroyNotify =>
    simp only [driverStep, hd] at hs
    cases hs
    exact h.notify (by simp [DPc.dying]) trivial

theorem workerStep_inv {i : Fin N} {k : ℕ} (h : Inv s) (hs : workerStep s i k = some s') : Inv s' := by
  obtain ⟨hd, hdo, hsh, -, -, -⟩ := workerStep_frame hs
  have hother : ∀ j, j ≠ i → s'.paused j = s.paused j ∧ (s'.w j).inWait = (s.w j).inWait ∧
      (s'.w j = .clearPaused ↔ s.w j = .clearPaused) := by
    intro j hj
    obtain ⟨hp, hw | hw⟩ := workerStep_other hs hj <;> rw [hw]
    · exact ⟨hp, rfl, Iff.rfl⟩
    · exact ⟨hp, inWait_notifyAll _ _, notifyAll_eq_iff _ rfl⟩
  have hflag : ∀ j, s'.paused j = true → (s'.w j).inWait = true ∨ s'.w j = .clearPaused := by
    intro j hj
    by_cases hji : j = i
    · subst hji
      exact workerStep_flag hs (h.flag j) hj
    · obtain ⟨hp, hw, hc⟩ := hother j hji
      rw [hw, hc]
      exact h.flag j (hp ▸ hj)
  refine ⟨workerStep_cons hs h.cons, fun hdy => ?_, hflag, fun hdy j hj => ?_, ?_⟩
  · rw [hsh]
    exact h.alive (hd ▸ hdy)
  · by_cases hji : j = i
    · subst hji
      refine (hflag j hj.2).resolve_right fun hc => ?_
      rcases workerStep_clearPaused hs hc with hf | hf
      · exact absurd hj.1 (by simp [hdo, hf])
      · exact absurd hf (by simp [h.alive (hd ▸ hdy) j])
    · obtain ⟨hp, hw, -⟩ := hother j hji
      rw [hw]
      exact h.asleep (hd ▸ hdy) j ⟨hdo ▸ hj.1, hp ▸ hj.2⟩
  · cases hdy : s.d.dying with
    | false =>
      rw [hd]
      exact Phase.mono (settles_of_worker hs fun j hj => ⟨h.asleep hdy j hj, h.alive hdy j⟩) h.phase
    | true =>
      rw [hd]
      cases hd' : s.d <;> simp [hd', DPc.dying] at hdy <;> trivial

/-- while something is buffered no worker sleeps and no flush is past `force_flush`: the queue does not matter -/
theorem Phase.spill (hb : s.buffered ≠ []) {q b : List DataNode} {d : DPc} (hp : Phase s d) :
    Phase { s with queue := q, buffered := b } d := by
  have hrest : Rest s → Rest { s with queue := q, buffered := b } := fun h => .inl (h.resolve_right fun h => hb h.2.2)
  cases d with
  | idle | forceFlush => exact hrest hp
  | unpauseDo j => exact ⟨hp.1, .inl (hp.2.resolve_right fun h => hb h.2.2)⟩
  | unpausePaused j => exact ⟨hp.1, hp.2.1, .inl (hp.2.2.resolve_right fun h => hb h.2.2)⟩
  | resumeNonBlock | resumeNotify | streaming => exact hp
  | flushNonBlock => exact absurd hp.2 hb
  | flushUnlock allPaused => cases allPaused <;> exact absurd hp.1.1 hb
  | pause j | flushLock | flushWait | flushPred j | flushCheck j => exact absurd hp.1.1 hb
  | destroyNonBlock | stop j | destroyNotify | dead => trivial

theorem step_inv {l : Label N} (hf : FreshFlush s l) (h : Inv s) (hs : step s l = some s') : Inv s' := by
  have hph := h.phase
  cases l with
  | processStreamUntil =>
    simp only [step] at hs
    split_ifs at hs with hd
    cases hs
    rw [hd] at hph
    refine h.goto (by simp [hd, DPc.dying]) ⟨fun i hi => absurd hi (Nat.not_lt_zero _), ?_⟩
    exact hph.imp (fun ha i _ => ha i) fun ha => ⟨fun i _ => ha.1 i, ha.2⟩
  | prepQuery =>
    simp only [step] at hs
    split_ifs at hs with hd
    cases hs
    rw [hd] at hph
    exact h.goto (by simp [hd, DPc.dying]) hph
  | destroy =>
    simp only [step] at hs
    split_ifs at hs with hd
    cases hs
    exact h.goto (by simp [hd, DPc.dying]) trivial
  | insert node =>
    simp only [step] at hs
    split_ifs at hs with hd
    cases hs
    rw [hd] at hph
    refine ⟨?_, h.alive, h.flag, h.asleep, ?_⟩
    · have hc := h.cons
      simp only [Conserved, content_append, content_cons, content_nil, add_zero, ← Multiset.coe_add] at hc ⊢
      rw [← hc]
      abel
    · simp only [hd]
      exact hph
  | spill =>
    simp only [step] at hs
    split at hs
    next => cases hs
    next node rest hb =>
      cases hs
      refine ⟨?_, h.alive, h.flag, h.asleep, hph.spill (by simp [hb])⟩
      have hc := h.cons
      simp only [Conserved, hb, content_append, content_cons, content_nil, add_zero] at hc ⊢
      rw [← hc]
      abel
  | endStream =>
    simp only [step] at hs
    split_ifs at hs with hd
    cases hs
    rw [hd] at hph
    exact h.goto (by simp [hd, DPc.dying]) (.inl hph)
  | driver t => exact driverStep_inv hf h hs
  | worker i k => exact workerStep_inv h hs
  | wake i =>
    simp only [step] at hs
    split_ifs at hs with hw
    cases hs
    exact h.wake hw

end step

/-! ## Runs -/

/-- what a finished flush promises: nothing is queued, buffered or in a worker's hands, and the batches whose callback has
completed are the inserted ones, each once -/
structure Flushed (s : St N) : Prop where
  queue : s.queue = []
  buffered : s.buffered = []
  idle : ∀ i, inProc (s.w i) = 0
  applied : (s.applied : Multiset UpdateBatch) = s.inserted

theorem Inv.flushed {s : St N} (h : Inv s) (hd : s.d = .flushUnlock true) : Flushed s := by
  have hph := h.phase
  rw [hd] at hph
  obtain ⟨hdr, -, hp⟩ := hph
  obtain ⟨hq, hb⟩ := hdr.empty hp
  have hidle : ∀ i, inProc (s.w i) = 0 := by
    intro i
    rcases h.flag i (hp i) with hw | hw
    · cases hi : s.w i <;> simp [hi, WPc.inWait] at hw <;> rfl
    · rw [hw]; rfl
  refine ⟨hq, hb, hidle, ?_⟩
  have hc := h.cons
  simpa [Conserved, hq, hb, hidle] using hc

/-- **No flush loses a batch when each flush begins fresh.** In every run of the driver and N workers in which each
`set_non_block(true)` of `flush_workers` finds the queue empty or some worker without a leftover observation:
`flush_workers` returns (with all workers found paused) only in flushed states. -/
theorem flush_complete {ls : List (Label N)} {s : St N} (hcond : Meets step FreshFlush (init N) ls)
    (hs : exec step (init N) ls = some s) (hd : s.d = .flushUnlock true) : Flushed s :=
  (exec_invariant_of_meets step (fun _ _ _ h hl hs => step_inv hl h hs) (inv_init N) hcond hs).flushed hd

/-- k steps of the driver -/
def drive (k : ℕ) : List (Label N) := List.replicate k (.driver false)

/-- k steps of worker i -/
def work (i : Fin N) (k : ℕ) : List (Label N) := List.replicate k (.worker i 0)

/-- one worker, one batch -/
def freshRun : List (Label 1) :=
  List.flatten [[.processStreamUntil], drive 5, [.insert [⟨0, [1]⟩], .endStream, .prepQuery], drive 4, work 0 12, drive 5]

theorem flush_complete_fresh :
    ∃ s, exec step (init 1) freshRun = some s ∧ s.d = .flushUnlock true ∧ s.applied = [⟨0, [1]⟩] ∧ Flushed s := by
  have h : (exec step (init 1) freshRun).isSome := by decide
  obtain ⟨s, hs⟩ := Option.isSome_iff_exists.1 h
  have hd : (exec step (init 1) freshRun).map (fun s => (s.d, s.applied)) = some (.flushUnlock true, [⟨0, [1]⟩]) := by
    decide
  simp only [hs, Option.map_some, Option.some.injEq, Prod.mk.injEq] at hd
  exact ⟨s, hs, hd.1, hd.2, flush_complete (by decide) hs hd.1⟩

/-- two workers that were awake too early: both hold the observation "queue empty" of the first flush when the second
begins -/
def staleRun : List (Label 2) :=
  List.flatten
    [[.prepQuery], drive 5, work Threads.fst 8, work Threads.snd 8, drive 8, [.processStreamUntil], drive 5,
      -- both are awake before set_non_block(false) and find the queue empty
      work Threads.fst 6, work Threads.snd 6, drive 2, [.insert [⟨0, [1]⟩], .endStream, .prepQuery], drive 5,
      work Threads.fst 7, work Threads.snd 7, drive 7]

/-- the second flush returns while the batch is still queued -/
theorem flush_loses_batch :
    (exec step (init 2) staleRun).map (fun s => (s.d, s.queue, s.inserted, s.applied)) =
      some (.flushUnlock true, [[⟨0, [1]⟩]], [⟨0, [1]⟩], []) := by
  decide

end GraphStreamingCC.Workers
