/-
A session with its worker threads refines the session without them (`crew_refines`), and its answers are right (`crew_right`).

What is proved of sessions holds of those with worker threads, as long as each flush begins in a fresh state of the workers.
It does not hold without this condition: a worker that has seen the empty queue before the resumption, with `non_block` still
set, pauses in the next flush without another look, and `prep_query` returns while a batch is in the queue. The last example
is a session in which the next query then gives a wrong answer.
-/
import GraphStreamingCC.Core.Refinement
import GraphStreamingCC.Session.CrewRefines

namespace GraphStreamingCC.Crew

open Boruvka Dsu Runs Service Workers

variable {P : Params} {n T B N : ℕ} {priority : Fin n → ℕ} {base : ℕ} {c : St P n T B N}

theorem inv_start {s₀ : Session.St P n T B} (h₀ : Session.Begins P n T B s₀) :
    (start N s₀).abs = s₀ ∧ Inv priority (updates s₀.history).length (start N s₀) := by
  have hheld : held (Workers.init N) = 0 := by simp [held, Workers.init, inProc]
  have hcalls : (start N s₀).inCalls = 0 := by simp [St.inCalls, start, inCall]
  have habs : (start N s₀).abs = s₀ := by
    simp only [St.abs, hcalls]
    simp only [start, hheld]
    exact Session.St.hold_zero s₀
  have hbuffered : s₀.stream.buffered = 0 := by cases h₀ <;> rfl
  have hdriver : s₀.stream.driver = .prepQuery := by cases h₀ <;> rfl
  refine ⟨habs, ?_, ?_, fun hr => ?_, fun i x hx => (by cases hx), hcalls ▸ Nat.zero_le _, ?_, ?_⟩
  · simp only [start, gutters_eq_nil.2 hbuffered, St.behind_nil]
    exact inv_init N
  · simp only [start, hdriver]
    rfl
  · simp only [start, hdriver] at hr
    cases hr
  · rw [habs]
    exact Session.guarded_begins h₀
  · rw [habs]
    exact Session.account_begins h₀

/-- a condition on the steps of a session, where a step of the crew is one -/
def Above (cond : Session.St P n T B → Session.Label n T B → Prop) (c : St P n T B N) : Label n T B N → Prop
  | .session l => cond c.session l
  | .form _ | .spill | .driver _ | .worker .. | .wake _ | .callback .. | .call _ => True

instance {cond : Session.St P n T B → Session.Label n T B → Prop} [∀ s l, Decidable (cond s l)] (c : St P n T B N) :
    (l : Label n T B N) → Decidable (Above cond c l)
  | .session l => inferInstanceAs (Decidable (cond c.session l))
  | .form _ | .spill | .driver _ | .worker .. | .wake _ | .callback .. | .call _ => inferInstanceAs (Decidable True)

/-- conditions that look neither at the buffered copies nor at the count go up -/
theorem refines (hT : 0 < T) {cond : Session.St P n T B → Session.Label n T B → Prop}
    (hhold : ∀ s m k l, cond s l → cond (s.hold m k) l) (hstream : ∀ s l, cond s (.stream l)) :
    Refines (step priority) (fun c l => FreshFlush c l ∧ Above cond c l) (Inv priority base) (St.abs (N := N))
      (Session.step priority) cond := by
  rintro c l c' h ⟨hf, hc⟩ hs
  obtain ⟨hinv, habs⟩ := step_refines h hT hf hs
  refine ⟨hinv, habs.imp_right ?_⟩
  rintro ⟨k, rfl | ⟨k', rfl⟩, hup⟩
  · exact ⟨k, hhold _ _ _ _ hc, hup⟩
  · exact ⟨_, hstream _ _, hup⟩

/-- nothing is on its way behind a flush -/
theorem Inv.abs_eq (h : Inv priority base c) (hr : c.session.stream.driver = .ready false) :
    held c.workers = 0 ∧ (∀ i, c.calls i = none) ∧ c.abs = c.session := by
  have hheld := (h.resting hr).held h.protocol
  have hcalls := h.no_calls hr
  have hin : c.inCalls = 0 := by simp [St.inCalls, hcalls, inCall]
  refine ⟨hheld, hcalls, ?_⟩
  rw [St.abs, hheld, hin]
  exact Session.St.hold_zero _

/-- **The worker threads.** Every run of a session with its worker threads, in which each flush begins in a fresh state of
the workers, is a run of the session without them, up to the copies that are on their way to a sketch. When `prep_query` has
flushed, none is on its way, no worker is in a call, and the two states are the same. -/
theorem crew_refines (hT : 0 < T) {s₀ : Session.St P n T B} (h₀ : Session.Begins P n T B s₀) {ls : List (Label n T B N)}
    (hf : Meets (step priority) FreshFlush (start N s₀) ls) (hs : exec (step priority) (start N s₀) ls = some c) :
    ∃ ks, exec (Session.step priority) s₀ ks = some (c.session.hold (copies n (held c.workers)) c.inCalls) ∧
      (c.session.stream.driver = .ready false → held c.workers = 0 ∧ (∀ i, c.calls i = none) ∧
        exec (Session.step priority) s₀ ks = some c.session) := by
  obtain ⟨habs, h0⟩ := inv_start h₀
  have hcond : Meets (step priority) (fun c l => FreshFlush c l ∧ Above (fun _ _ => True) c l) (start N s₀) ls :=
    meets_mono _ (fun c l hf => ⟨hf, by cases l <;> trivial⟩) hf
  obtain ⟨hinv, ks, hrun, -⟩ := (refines hT (fun _ _ _ _ _ => trivial) fun _ _ => trivial).run h0 hcond hs
  rw [habs] at hrun
  refine ⟨ks, hrun, fun hr => ?_⟩
  obtain ⟨hheld, hcalls, heq⟩ := hinv.abs_eq hr
  exact ⟨hheld, hcalls, heq ▸ hrun⟩

/-! ## Runs of one worker -/

open Threads in
/-- the stream threads insert k copies of the edge, and the gutters make one data node of them -/
def pairStream (k steps : ℕ) (resume : List (Label 2 2 2 1)) : List (Label 2 2 2 1) := List.flatten [
  [.session (.processStreamUntil (List.replicate k (fst, snd)))], resume, [.session (.stream (.getUpdateBuffer fst k))],
  List.replicate steps (.session (.stream (.reader fst .left))),
  [.session (.stream (.getUpdateBuffer fst 0)), .session (.stream (.getUpdateBuffer snd 0)),
    .form [(fst, List.replicate k snd), (snd, List.replicate k fst)], .session (.stream .driver), .session (.stream .driver)]]

open Threads in
/-- the worker applies the two batches between `force_flush` and `flush_workers`, and pauses -/
def pairFlush (k : ℕ) : List (Label 2 2 2 1) := List.flatten [
  [.driver false, .worker (nth 0) 0, .callback (nth 0) fst (List.replicate k snd)], List.replicate (k + 3) (.call (nth 0)),
  [.callback (nth 0) snd (List.replicate k fst)], List.replicate (k + 3) (.call (nth 0)),
  List.replicate 2 (.worker (nth 0) 0), List.replicate 3 (.driver false), List.replicate 8 (.worker (nth 0) 0),
  List.replicate 6 (.driver false)]

def pairCrew : List (Label 2 2 2 1) := pairStream 3 42 (List.replicate 5 (.driver false)) ++ pairFlush 3

theorem crew_refines_pair :
    ∃ c, exec (step Emulation.pairPriority) (start 1 (Session.start Emulation.pair 2 2 2)) pairCrew = some c ∧
      c.session.totalUpdates = 6 ∧ c.workers.w (Threads.nth 0) = .waiting ∧
      ∃ ks, exec (Session.step Emulation.pairPriority) (Session.start Emulation.pair 2 2 2) ks = some c.session := by
  have hrun : ∃ c ∈ exec (step Emulation.pairPriority) (start 1 (Session.start Emulation.pair 2 2 2)) pairCrew,
      c.session.stream.driver = .ready false ∧ c.session.totalUpdates = 6 ∧ c.workers.w (Threads.nth 0) = .waiting := by
    decide +kernel
  obtain ⟨c, hs, hready, htotal, hwaiting⟩ := hrun
  have hfresh : Meets (step Emulation.pairPriority) FreshFlush (start 1 (Session.start Emulation.pair 2 2 2)) pairCrew := by
    decide +kernel
  obtain ⟨ks, -, hflushed⟩ := crew_refines (by norm_num) .new hfresh hs
  exact ⟨c, hs, htotal, hwaiting, ks, (hflushed hready).2.2⟩

/-- the two conditions on the steps of a session -/
def Sound (s : Session.St P n T B) (l : Session.Label n T B) : Prop := Session.FinalLoad s l ∧ Session.NoFalse s l

theorem Sound.hold {s : Session.St P n T B} {l : Session.Label n T B} (h : Sound s l) (m : Multiset (Fin n × Fin n)) (k : ℕ) :
    Sound (s.hold m k) l := by
  cases l <;> exact h

theorem above_mono {d d' : Session.St P n T B → Session.Label n T B → Prop} (h : ∀ s l, d s l → d' s l) {l : Label n T B N}
    (hc : Above d c l) : Above d' c l := by
  cases l with
  | session l => exact h _ _ hc
  | form | spill | driver | worker | wake | callback | call => trivial

theorem above_sound {l : Label n T B N} (hl : Above Session.FinalLoad c l) (hc : Above Session.NoFalse c l) :
    Above Sound c l := by
  cases l with
  | session l => exact ⟨hl, hc⟩
  | form | spill | driver | worker | wake | callback | call => trivial

/-- **The answers with worker threads.** In a session with its worker threads, under any schedule in which each flush begins
in a fresh state of the workers, every answer is right for the updates handed over before it, if in its Boruvka rounds no
index set that occurs has a false checksum, and every `find_root` of a team makes its last load where that load gives a root.
No worker refuses an update, unless a query has thrown before. A file written behind a flush begins another session. -/
theorem crew_right (hn : n < 2 ^ 32) (hT : 0 < T) (hB : 0 < B) (hBn : B ≤ n) {s₀ : Session.St P n T B}
    (h₀ : Session.Begins P n T B s₀) {ls : List (Label n T B N)}
    (hf : Meets (step priority) FreshFlush (start N s₀) ls)
    (hl : Meets (step priority) (Above Session.FinalLoad) (start N s₀) ls)
    (hc : Meets (step priority) (Above Session.NoFalse) (start N s₀) ls)
    (hs : exec (step priority) (start N s₀) ls = some c) :
    Right Session.Correct c.session.history ∧ (∀ x ∈ c.session.refused, x.2 ≠ [] → .failed ∈ c.session.history) ∧
      (c.session.stream.driver = .ready false → ∀ T' B', Session.Begins P n T' B'
        (Session.startFrom T' B' (fun v => ⟨0, (c.session.stream.sketches v).buckets⟩) (updates c.session.history))) := by
  obtain ⟨habs, h0⟩ := inv_start h₀
  have hcond : Meets (step priority) (fun c l => FreshFlush c l ∧ Above Sound c l) (start N s₀) ls :=
    meets_mono _ (fun c l h => ⟨h.1, above_sound h.2.1 h.2.2⟩) (meets_and _ hf (meets_and _ hl hc))
  obtain ⟨hinv, ks, hrun, hmeets⟩ :=
    (refines hT (fun s m k l (h : Sound s l) => h.hold m k) fun s l => ⟨trivial, trivial⟩).run h0 hcond hs
  rw [habs] at hrun hmeets
  have h : Session.Inv priority c.abs :=
    exec_invariant_of_meets _ (fun _ _ _ h hc hs => Session.step_inv hT hn hB hBn h hc.1 hc.2 hs) (Session.inv_begins h₀)
      hmeets hrun
  refine ⟨h.right, h.refused, fun hr => ?_⟩
  rw [(hinv.abs_eq hr).2.2] at h
  exact h.written hT hr

/-- the same, and `point_query` of the two vertices -/
def pairAsked : List (Label 2 2 2 1) := pairCrew ++ Session.pairAsk.map .session

theorem crew_right_pair :
    ∃ c, exec (step Emulation.pairPriority) (start 1 (Session.start Emulation.pair 2 2 2)) pairAsked = some c ∧
      Session.latest c.session.history = some true ∧ Right Session.Correct c.session.history := by
  have hrun : ∃ c ∈ exec (step Emulation.pairPriority) (start 1 (Session.start Emulation.pair 2 2 2)) pairAsked,
      Session.latest c.session.history = some true := by
    decide +kernel
  obtain ⟨c, hs, hlatest⟩ := hrun
  have hfresh : Meets (step Emulation.pairPriority) FreshFlush (start 1 (Session.start Emulation.pair 2 2 2)) pairAsked := by
    decide +kernel
  have hload : Meets (step Emulation.pairPriority) (Above Session.FinalLoad) (start 1 (Session.start Emulation.pair 2 2 2))
      pairAsked := by
    decide +kernel
  have hedges : Meets (step Emulation.pairPriority) (Above fun s _ => Session.Within Emulation.pairStream s)
      (start 1 (Session.start Emulation.pair 2 2 2)) pairAsked := by
    decide +kernel
  have hfalse : Meets (step Emulation.pairPriority) (Above Session.NoFalse) (start 1 (Session.start Emulation.pair 2 2 2))
      pairAsked := by
    refine meets_mono _ (fun c l hu => ?_) hedges
    exact above_mono (fun s l hu => Session.noFalse_of_within Emulation.pair_noFalse hu l) hu
  exact ⟨c, hs, hlatest, (crew_right (by norm_num) (by norm_num) (by norm_num) le_rfl .new hfresh hload hfalse hs).1⟩

open Threads in
/-- the worker wakes up before `non_block` is cleared: it is about to pause when the next flush begins, in which a data node
stays in the queue -/
def pairStale : List (Label 2 2 2 1) := List.flatten [
  pairStream 2 37 (List.replicate 5 (.driver false)), pairFlush 2,
  pairStream 1 5 (List.flatten [[.driver false, .wake (nth 0)], List.replicate 6 (.worker (nth 0) 0),
    List.replicate 4 (.driver false)]),
  List.replicate 4 (.driver false), List.replicate 7 (.worker (nth 0) 0), List.replicate 6 (.driver false),
  [.session (.query (.pointQuery fst snd)), .session (.querier .left), .session (.boruvka id),
    .session (.emulate (.thread fst .left)), .session (.emulate (.thread snd .left)), .session (.emulate .join),
    .session .finish], List.replicate 9 (.session (.querier .left))]

/-- three insertions or deletions of the edge leave it in the graph; the answer says otherwise -/
example : ∃ c ∈ exec (step Emulation.pairPriority) (start 1 (Session.start Emulation.pair 2 2 2)) pairStale,
    updates c.session.history = List.replicate 3 (Threads.fst, Threads.snd) ∧ Session.latest c.session.history = some false := by
  decide +kernel

end GraphStreamingCC.Crew
