/-
The steps of a session with its worker threads, as steps of the session without them (`step_refines`).

The session without them is the view of the user: a copy is buffered until the merge of its batch, wherever it is in the
gutters, in a data node, in the work queue or in the hands of a worker (`St.abs`). All steps of the workers but the last
statement of a call, and all steps of the driver but the end of `flush_workers`, do not change this view. The end of
`flush_workers` does, and there nothing may be left anywhere: that is what the pause protocol is for (`Workers.Inv`), which
needs each flush to begin in a fresh state. The workers of a call that has passed the test of `update_locked` find the flag
as it was, since it changes only behind a flush that has not been skipped.
-/
import GraphStreamingCC.Session.CrewParts

namespace GraphStreamingCC.Crew

open Dsu Runs Service Workers

variable {P : Params} {n T B N : ℕ} {priority : Fin n → ℕ} {base : ℕ} {c c' : St P n T B N} {i : Fin N}

/-! ## The view of the user -/

/-- the session without worker threads -/
def St.abs (c : St P n T B N) : Session.St P n T B := c.session.hold (copies n (held c.workers)) c.inCalls

/-- stands for the copies that are in no data node yet -/
def gutters (m : Multiset (Fin n × Fin n)) : List DataNode := if m = 0 then [] else [[]]

theorem content_gutters (m : Multiset (Fin n × Fin n)) : content (gutters m) = 0 := by
  unfold gutters
  split_ifs <;> rfl

theorem gutters_eq_nil {m : Multiset (Fin n × Fin n)} : gutters m = [] ↔ m = 0 := by
  unfold gutters
  split_ifs with hm <;> simp [hm]

/-- where the driver's thread is, above and below -/
def Place : Stream.DriverPc → DPc → Prop
  | .processStream, d => d.resumes = true
  | .flush, d => d.flushes = true
  | .prepQuery, d | .ready _, d => d = .idle

theorem place_between {driver : Stream.DriverPc} {d : DPc} (h : Place driver d) (hb : Session.between driver = true) :
    d = .idle := by
  cases driver with
  | prepQuery | ready => exact h
  | processStream | flush => cases hb

structure Inv (priority : Fin n → ℕ) (base : ℕ) (c : St P n T B N) : Prop where
  protocol : Workers.Inv (c.workers.behind (gutters c.session.stream.buffered))
  place : Place c.session.stream.driver c.workers.d
  resting : c.session.stream.driver = .ready false → Resting (c.workers.behind (gutters c.session.stream.buffered))
  calls : ∀ i x, c.calls i = some x → InCall c i x
  counted : c.inCalls ≤ c.session.totalUpdates
  guarded : Session.Guarded priority c.abs
  account : Session.Account base c.abs

/-- behind a flush nobody is in a call -/
theorem Inv.no_calls (h : Inv priority base c) (hr : c.session.stream.driver = .ready false) (i : Fin N) : c.calls i = none := by
  cases hx : c.calls i with
  | none => rfl
  | some x =>
    obtain ⟨src, dsts, bs, hw, hpos, -, -⟩ := h.calls i x hx
    have hflag := h.protocol.flag i ((h.resting hr).1 i).2
    simp only [St.behind, hw] at hflag
    rcases hflag with hflag | hflag <;> cases hflag

/-- copies come into the gutters only while the stream threads run -/
theorem gutters_inv {s : Workers.St N} {m m' : Multiset (Fin n × Fin n)} (h : Workers.Inv (s.behind (gutters m)))
    (hm : m' = m ∨ s.d = .streaming ∧ m' ≠ 0) : Workers.Inv (s.behind (gutters m')) := by
  rcases hm with rfl | ⟨hd, hm'⟩
  · exact h
  · by_cases hm : m = 0
    · have hnil : s.behind (gutters m) = s := by rw [gutters, if_pos hm, St.behind_nil]
      have hinsert : Workers.step s (.insert []) = some (s.behind (gutters m')) := by
        simp only [Workers.step, if_pos hd, gutters, if_neg hm', St.behind, live, List.filter_nil, List.append_nil]
      rw [hnil] at h
      exact step_inv (l := .insert []) trivial h hinsert
    · have hsame : gutters m' = gutters m := by rw [gutters, gutters, if_neg hm, if_neg hm']
      rwa [hsame]

/-! ## Steps of the session -/

/-- what the driver's thread does with the workers in a step of the session -/
structure Accompanied (c : St P n T B N) (s : Session.St P n T B) (w : Workers.St N) : Prop where
  workers : ∃ d, w = { c.workers with d := d }
  protocol : ∀ b, Workers.Inv (c.workers.behind b) → Workers.Inv (w.behind b)
  place : Place s.stream.driver w.d
  ready : s.stream.driver = .ready false → c.session.stream.driver = .ready false
  gutters : s.stream.buffered = c.session.stream.buffered ∨ w.d = .streaming ∧ s.stream.buffered ≠ 0

/-- the workers are not concerned -/
theorem accompanied_nil {s : Session.St P n T B} (hplace : Place c.session.stream.driver c.workers.d)
    (hdriver : s.stream.driver = c.session.stream.driver)
    (hbuffered : s.stream.buffered = c.session.stream.buffered ∨ c.workers.d = .streaming ∧ s.stream.buffered ≠ 0) :
    Accompanied c s c.workers :=
  ⟨⟨_, rfl⟩, fun _ h => h, hdriver ▸ hplace, fun hr => hdriver ▸ hr, hbuffered⟩

/-- a step of the driver to another place -/
theorem accompanied_step {s : Session.St P n T B} {w : Workers.St N} {l : Workers.Label N} (hl : LooksAway c.workers l)
    (hf : FreshFlush c.workers l) (hw : Workers.step c.workers l = some w) (hd : ∃ d, w = { c.workers with d := d })
    (hplace : Place s.stream.driver w.d) (hready : s.stream.driver ≠ .ready false)
    (hbuffered : s.stream.buffered = c.session.stream.buffered) : Accompanied c s w :=
  ⟨hd, fun _ h => h.step_behind hl hf hw, hplace, fun hr => absurd hr hready, .inl hbuffered⟩

theorem exec_singleton {s w : Workers.St N} {l : Workers.Label N} (h : exec Workers.step s [l] = some w) :
    Workers.step s l = some w := by
  obtain ⟨w', hw, h⟩ := exec_cons_some _ h
  cases h
  exact hw

theorem readerStep_gutters {s s' : Stream.St P n T} {t : Fin T} {o : Side} (hs : Stream.readerStep priority s t o = some s') :
    s'.driver = s.driver ∧ (s'.buffered = s.buffered ∨ s'.buffered ≠ 0) := by
  cases hpc : (s.readers t).pc with
  | next =>
    cases harr : (s.readers t).updateArray with
    | nil => simp [Stream.readerStep, hpc, harr] at hs
    | cons e rest =>
      simp only [Stream.readerStep, hpc, harr] at hs
      obtain ⟨eager, -, rfl⟩ := Option.map_eq_some_iff.1 hs
      exact ⟨rfl, .inl rfl⟩
  | preInsert e =>
    simp only [Stream.readerStep, hpc] at hs
    split_ifs at hs
    · cases hs
      exact ⟨rfl, .inl rfl⟩
    · obtain ⟨eager, -, rfl⟩ := Option.map_eq_some_iff.1 hs
      exact ⟨rfl, .inl rfl⟩
  | insertSrc e | insertDst e =>
    simp only [Stream.readerStep, hpc, Option.some.injEq] at hs
    subst hs
    exact ⟨rfl, .inr (Multiset.cons_ne_zero)⟩
  | returned => simp [Stream.readerStep, hpc] at hs

theorem accompanied {l : Session.Label n T B} {ms : List (Workers.Label N)} {s : Session.St P n T B} {w : Workers.St N}
    (hplace : Place c.session.stream.driver c.workers.d) (hms : accompany c l = some ms)
    (hs : Session.step priority c.session l = some s) (hw : exec Workers.step c.workers ms = some w) :
    Session.Unheld c.session l ∧ Accompanied c s w := by
  have hcalm : ms = [] → (∀ us, l ≠ .processStreamUntil us) ∧ l ≠ .prepQuery ∧ (∀ k, l ≠ .stream k) → Accompanied c s w := by
    rintro rfl hl
    cases hw
    obtain ⟨hdriver, hbuffered⟩ := Session.step_calm hl hs
    exact accompanied_nil hplace hdriver (.inl hbuffered)
  have hact : Session.act priority c.session l = some s := by
    unfold Session.step at hs
    split_ifs at hs
    exact hs
  cases l with
  | processStreamUntil us =>
    cases hms
    have hstep := exec_singleton hw
    simp only [Session.act] at hact
    split_ifs at hact
    cases hact
    have hmove := hstep
    simp only [Workers.step] at hmove
    split_ifs at hmove
    cases hmove
    exact ⟨trivial, accompanied_step (l := .processStreamUntil) trivial trivial hstep ⟨_, rfl⟩ rfl (by simp) rfl⟩
  | prepQuery =>
    cases hms
    cases hw
    simp only [Session.act] at hact
    split_ifs at hact with hb
    cases hact
    exact ⟨trivial, ⟨_, rfl⟩, fun _ h => h, place_between hplace hb.1, fun hr => (by cases hr), .inl rfl⟩
  | stream k =>
    obtain ⟨stream, he, hs'⟩ := Option.map_eq_some_iff.1 hact
    cases k with
    | batch => cases hms
    | getUpdateBuffer t k =>
      simp only [accompany] at hms
      split_ifs at hms with hd
      cases hms
      cases hw
      subst hs'
      simp only [Stream.step] at he
      split_ifs at he <;> cases he <;> exact ⟨trivial, accompanied_nil hplace rfl (.inl rfl)⟩
    | reader t o =>
      simp only [accompany] at hms
      split_ifs at hms with hd
      cases hms
      cases hw
      subst hs'
      obtain ⟨hdriver, hbuffered⟩ := readerStep_gutters he
      exact ⟨trivial, accompanied_nil hplace hdriver (hbuffered.imp_right fun h => ⟨hd, h⟩)⟩
    | driver =>
      subst hs'
      cases hdriver : c.session.stream.driver with
      | flush | ready =>
        simp only [accompany, hdriver] at hms
        cases hms
      | processStream =>
        simp only [accompany, hdriver, Option.some.injEq] at hms
        subst hms
        have hstep := exec_singleton hw
        simp only [Stream.step, hdriver] at he
        split_ifs at he
        cases he
        have hmove := hstep
        simp only [Workers.step] at hmove
        split_ifs at hmove
        cases hmove
        refine ⟨?_, accompanied_step (l := .endStream) trivial trivial hstep ⟨_, rfl⟩ rfl (by simp) rfl⟩
        simp [Session.Unheld, Stream.Unheld, hdriver]
      | prepQuery =>
        have hunheld : Session.Unheld c.session (.stream .driver : Session.Label n T B) := by
          simp [Session.Unheld, Stream.Unheld, hdriver]
        simp only [accompany, hdriver, Option.some.injEq] at hms
        simp only [Stream.step, hdriver, Option.some.injEq] at he
        subst he
        rw [hdriver] at hplace
        by_cases hv : c.session.stream.eager.sharedDsuValid = true
        · rw [if_pos hv] at hms
          subst hms
          cases hw
          refine ⟨hunheld, ⟨_, rfl⟩, fun _ h => h, ?_, ?_, .inl rfl⟩
          · simp only [if_pos hv]
            exact hplace
          · simp only [if_pos hv]
            exact fun hr => by cases hr
        · rw [if_neg hv] at hms
          subst hms
          have hstep := exec_singleton hw
          have hmove := hstep
          simp only [Workers.step] at hmove
          split_ifs at hmove
          cases hmove
          refine ⟨hunheld, accompanied_step (l := .prepQuery) trivial trivial hstep ⟨_, rfl⟩ ?_ ?_ rfl⟩
          · simp only [if_neg hv]
            rfl
          · simp [if_neg hv]
  | query | querier | team | join | boruvka | emulate | finish =>
    simp only [accompany, Option.some.injEq] at hms
    exact ⟨trivial, hcalm hms.symm (by simp)⟩

/-- **A step of the session** is the same step above. -/
theorem Inv.session (h : Inv priority base c) (hT : 0 < T) {l : Session.Label n T B} {ms : List (Workers.Label N)}
    {s : Session.St P n T B} {w : Workers.St N} (hms : accompany c l = some ms)
    (hs : Session.step priority c.session l = some s) (hw : exec Workers.step c.workers ms = some w) :
    Inv priority base { c with session := s, workers := w } ∧
      Session.step priority c.abs l = some { c with session := s, workers := w }.abs := by
  obtain ⟨hunheld, hacc⟩ := accompanied h.place hms hs hw
  obtain ⟨d, rfl⟩ := hacc.workers
  have habs := Session.step_hold (copies n (held c.workers)) c.inCalls hunheld hs
  have hprotocol := gutters_inv (hacc.protocol _ h.protocol) hacc.gutters
  have hready : s.stream.driver = .ready false → s.stream.buffered = c.session.stream.buffered := by
    intro hr
    refine hacc.gutters.resolve_right fun hd => ?_
    have hplace := hacc.place
    rw [hr] at hplace
    exact absurd (hd.1.symm.trans hplace) (by simp)
  have hboruvka : ∀ x ∈ c.session.boruvka, ∃ q, c.session.stream.eager.query = .boruvka q :=
    fun x hx => (h.guarded.tidy.boruvka x hx).1
  obtain ⟨htotal, hlocked⟩ := Session.step_locked hboruvka hunheld hs
  refine ⟨⟨hprotocol, hacc.place, fun hr => ?_, fun i x hx => ?_, ?_, ?_, ?_⟩, habs⟩
  · have hrest := h.resting (hacc.ready hr)
    rw [← hready hr] at hrest
    exact hrest
  · obtain ⟨src, dsts, bs, hprocess, hpos, hcall, hdoing⟩ := h.calls i x hx
    have hlocked : s.updateLocked = c.session.updateLocked := by
      apply hlocked.resolve_right
      rintro ⟨q, hq⟩
      have hnone := h.no_calls (h.guarded.behind q hq) i
      exact absurd (hx.symm.trans hnone) (by simp)
    exact ⟨src, dsts, bs, hprocess, hpos, hcall, hlocked ▸ hdoing⟩
  · exact htotal ▸ h.counted
  · exact Session.step_guarded hT h.account h.guarded habs
  · exact Session.step_account hT h.account habs

/-! ## Steps of the workers and of the driver -/

/-- a step that the user does not see -/
theorem Inv.quiet (h : Inv priority base c) {w : Workers.St N}
    (hprotocol : Workers.Inv (w.behind (gutters c.session.stream.buffered))) (hheld : held w = held c.workers)
    (hplace : Place c.session.stream.driver w.d)
    (hresting : c.session.stream.driver = .ready false → Resting (w.behind (gutters c.session.stream.buffered)))
    (hkeep : ∀ i, c.calls i ≠ none → w.w i = c.workers.w i) :
    Inv priority base { c with workers := w } ∧ { c with workers := w }.abs = c.abs := by
  have habs : { c with workers := w }.abs = c.abs := by
    simp only [St.abs, hheld]
    rfl
  refine ⟨⟨hprotocol, hplace, hresting, fun i x hx => ?_, h.counted, habs ▸ h.guarded, habs ▸ h.account⟩, habs⟩
  obtain ⟨src, dsts, bs, hw, hcall⟩ := h.calls i x hx
  have hsame := hkeep i (by simp [show c.calls i = some x from hx])
  exact ⟨src, dsts, bs, hsame.trans hw, hcall⟩

/-- a worker in a call is at a batch that it passes on -/
theorem Inv.process (h : Inv priority base c) (hx : c.calls i ≠ none) :
    (c.workers.w i).passes = true ∧ ∃ bs, c.workers.w i = .process bs := by
  obtain ⟨x, hx⟩ := Option.ne_none_iff_exists'.1 hx
  obtain ⟨src, dsts, bs, hw, hpos, -, -⟩ := h.calls i x hx
  refine ⟨?_, _, hw⟩
  rw [hw]
  simpa [WPc.passes, toBatch] using hpos

theorem notifyAll_process {w : Fin N → WPc} {bs : List UpdateBatch} (hw : w i = .process bs) : notifyAll w i = w i := by
  apply (notifyAll_cases w i).resolve_right
  rintro ⟨hwait, -⟩
  rw [hw] at hwait
  cases hwait

theorem Inv.worker (h : Inv priority base c) {k : ℕ} {w : Workers.St N} (hp : (c.workers.w i).passes = false)
    (hs : workerStep c.workers i k = some w) :
    Inv priority base { c with workers := w } ∧ { c with workers := w }.abs = c.abs := by
  have hprotocol := h.protocol.step_behind (l := .worker i k) trivial trivial hs
  obtain ⟨hd, -, -, -, hinserted, -⟩ := workerStep_frame hs
  have hheld := held_congr h.protocol hprotocol (content_gutters _) (workerStep_applied hp hs) hinserted
  apply h.quiet hprotocol hheld (hd ▸ h.place)
  · intro hr
    apply (h.resting hr).mono
    have hbehind : workerStep (c.workers.behind (gutters c.session.stream.buffered)) i k =
        some (w.behind (gutters c.session.stream.buffered)) := by
      rw [workerStep_behind, hs]
      rfl
    have hplace := h.place
    rw [hr] at hplace
    have hdying : (c.workers.behind (gutters c.session.stream.buffered)).d.dying = false := by
      simp only [St.behind]
      rw [hplace]
      rfl
    exact settles_of_worker hbehind fun j hj => ⟨h.protocol.asleep hdying j hj, h.protocol.alive hdying j⟩
  · intro j hj
    obtain ⟨hpasses, bs, hw⟩ := h.process hj
    have hji : j ≠ i := by
      rintro rfl
      rw [hp] at hpasses
      cases hpasses
    rcases (workerStep_other hs hji).2 with hsame | hsame
    · exact hsame
    · rw [hsame]
      exact notifyAll_process hw

theorem Inv.wake (h : Inv priority base c) {w : Workers.St N} (hs : Workers.step c.workers (.wake i) = some w) :
    Inv priority base { c with workers := w } ∧ { c with workers := w }.abs = c.abs := by
  have hprotocol := h.protocol.step_behind (l := .wake i) trivial trivial hs
  simp only [Workers.step] at hs
  split_ifs at hs with hwait
  cases hs
  have hheld := held_congr h.protocol hprotocol (content_gutters _) rfl rfl
  refine h.quiet hprotocol hheld h.place (fun hr => ?_) fun j hj => ?_
  · exact h.resting hr
  · obtain ⟨-, bs, hw⟩ := h.process hj
    apply Function.update_of_ne
    rintro rfl
    rw [hwait] at hw
    cases hw

/-- while the gutters hold something, no flush has been finished -/
theorem Inv.not_ready (h : Inv priority base c) (hb : (c.workers.behind (gutters c.session.stream.buffered)).buffered ≠ []) :
    c.session.stream.driver ≠ .ready false := fun hr => hb (h.resting hr).2.2

theorem Inv.spill (h : Inv priority base c) {w : Workers.St N} (hs : Workers.step c.workers .spill = some w) :
    Inv priority base { c with workers := w } ∧ { c with workers := w }.abs = c.abs := by
  cases hb : c.workers.buffered with
  | nil =>
    simp only [Workers.step, hb] at hs
    cases hs
  | cons node rest =>
    simp only [Workers.step, hb, Option.some.injEq] at hs
    subst hs
    have hne : (c.workers.behind (gutters c.session.stream.buffered)).buffered ≠ [] := by simp [St.behind, hb]
    have hbehind : Workers.step (c.workers.behind (gutters c.session.stream.buffered)) .spill =
        some (({ c.workers with queue := c.workers.queue ++ [node], buffered := rest } : Workers.St N).behind
          (gutters c.session.stream.buffered)) := by
      simp only [Workers.step, St.behind, hb, List.cons_append]
    have hprotocol := step_inv (l := .spill) trivial h.protocol hbehind
    have hheld := held_congr h.protocol hprotocol (content_gutters _) rfl rfl
    exact h.quiet hprotocol hheld h.place (fun hr => absurd hr (h.not_ready hne)) fun _ _ => rfl

/-- the gutters make a data node -/
theorem Inv.form (h : Inv priority base c) {batches : List (Fin n × List (Fin n))} (hne : nodeCopies batches ≠ 0)
    (hle : nodeCopies batches ≤ c.session.stream.buffered) :
    Inv priority base (c.form batches) ∧ (c.form batches).abs = c.abs := by
  have hbuffered : c.session.stream.buffered ≠ 0 := by
    intro hzero
    rw [hzero] at hle
    exact hne (Multiset.le_zero.1 hle)
  have hnil : (c.workers.behind (gutters c.session.stream.buffered)).buffered ≠ [] := by
    simp [St.behind, gutters, hbuffered]
  have hheld : held (c.form batches).workers = held c.workers + live (toNode batches) := by
    simp only [St.form, held, content_append, content_cons, content_nil, add_zero, add_assoc]
  have hprotocol : Workers.Inv ((c.form batches).workers.behind (gutters (c.form batches).session.stream.buffered)) := by
    have hcons := h.protocol.held_eq (content_gutters _)
    apply h.protocol.refill hnil
    simp only [Conserved, content_append, content_gutters, add_zero]
    calc (c.workers.applied : Multiset UpdateBatch) + ∑ i, inProc (c.workers.w i) + content c.workers.queue +
          content (c.form batches).workers.buffered
        = c.workers.applied + held (c.form batches).workers := by
          simp only [held, St.form]
          abel
      _ = c.workers.applied + held c.workers + live (toNode batches) := by rw [hheld, add_assoc]
      _ = (c.workers.inserted ++ live (toNode batches) : List UpdateBatch) := by rw [hcons, Multiset.coe_add]
  have hcopies : (c.form batches).session.stream.buffered + copies n (held (c.form batches).workers) =
      c.session.stream.buffered + copies n (held c.workers) := by
    rw [hheld, copies, Multiset.add_bind, ← copies, ← copies, copies_live, add_comm (copies n _), ← add_assoc]
    exact congrArg (· + _) (tsub_add_cancel_of_le hle)
  have habs : (c.form batches).abs = c.abs := by
    simp only [St.abs, Session.St.hold, Stream.St.hold, hcopies]
    rfl
  exact ⟨⟨hprotocol, h.place, fun hr => absurd hr (h.not_ready hnil), h.calls, h.counted, habs ▸ h.guarded,
    habs ▸ h.account⟩, habs⟩

/-- **A step of the driver** is not seen, unless it ends a flush. -/
theorem Inv.driver (h : Inv priority base c) (hT : 0 < T) (hrefused : c.session.refused = none) {timeout : Bool}
    {w : Workers.St N} (hf : FreshFlush c.workers (.driver timeout))
    (hempty : c.workers.d = .forceFlush → c.session.stream.buffered = 0) (hs : driverStep c.workers timeout = some w) :
    Inv priority base (c.drive w) ∧
      ((c.drive w).abs = c.abs ∨ Session.step priority c.abs (.stream .driver) = some (c.drive w).abs) := by
  have hprotocol : Workers.Inv (w.behind (gutters c.session.stream.buffered)) := by
    by_cases hd : c.workers.d = .forceFlush
    · have hnil : gutters c.session.stream.buffered = [] := gutters_eq_nil.2 (hempty hd)
      have hinv := h.protocol
      rw [hnil, St.behind_nil] at hinv ⊢
      exact step_inv hf hinv hs
    · exact h.protocol.step_behind (l := .driver timeout) hd hf hs
  obtain ⟨happlied, hinserted, hw, -⟩ := driverStep_frame hs
  have hheld := held_congr h.protocol hprotocol (content_gutters _) happlied hinserted
  have hkeep : ∀ i, c.calls i ≠ none → w.w i = c.workers.w i := by
    intro i hx
    obtain ⟨-, bs, hprocess⟩ := h.process hx
    rcases hw with hw | hw <;> rw [hw]
    exact notifyAll_process hprocess
  by_cases hd : c.workers.d = .flushUnlock true
  · have hdriver : c.session.stream.driver = .flush := by
      have hplace := h.place
      cases hdriver : c.session.stream.driver <;> rw [hdriver, hd] at hplace <;> first | rfl | cases hplace
    have hrest : Resting (c.workers.behind (gutters c.session.stream.buffered)) := h.protocol.resting hd
    have hnothing : (c.session.stream.buffered + copies n (held c.workers) : Multiset (Fin n × Fin n)) = 0 := by
      rw [gutters_eq_nil.1 hrest.nothing, hrest.held h.protocol]
      rfl
    have habs : Session.step priority c.abs (.stream .driver) = some (c.drive w).abs := by
      rw [Session.step_flush (s := c.abs) hrefused hdriver hnothing]
      simp only [St.abs, St.drive, if_pos hd, hheld]
      rfl
    have hend := driverStep_unlock hd hs
    refine ⟨⟨hprotocol, ?_, fun _ => ?_, fun i x hx => ?_, h.counted, ?_, ?_⟩, .inr habs⟩
    · simp only [St.drive, if_pos hd, hend]
      rfl
    · simp only [St.drive, hend]
      exact hrest
    · obtain ⟨src, dsts, bs, hprocess, hcall⟩ := h.calls i x hx
      exact ⟨src, dsts, bs, (hkeep i (by simp [show c.calls i = some x from hx])).trans hprocess, hcall⟩
    · exact Session.step_guarded hT h.account h.guarded habs
    · exact Session.step_account hT h.account habs
  · have hdrive : c.drive w = { c with workers := w } := by
      simp only [St.drive, if_neg hd]
    have hidle : c.workers.d ≠ .idle := by
      intro hidle
      simp only [driverStep, hidle] at hs
      cases hs
    have hplace := h.place
    have hquiet := h.quiet hprotocol hheld ?_ ?_ hkeep
    · rw [hdrive]
      exact ⟨hquiet.1, .inl hquiet.2⟩
    · cases hdriver : c.session.stream.driver with
      | processStream =>
        rw [hdriver] at hplace
        exact driverStep_resumes hplace hs
      | flush =>
        rw [hdriver] at hplace
        exact ((driverStep_flushes hplace hs).resolve_right fun hend => hd hend.1).2
      | prepQuery | ready =>
        rw [hdriver] at hplace
        exact absurd hplace hidle
    · intro hr
      rw [hr] at hplace
      exact absurd hplace hidle

/-! ## Calls of `apply_update_batch` -/

theorem inCalls_update (c : St P n T B N) (i : Fin N) (x : Option (Ingest.Call P n × Ingest.Pc P n)) :
    ∑ j, inCall (Function.update c.calls i x j) + inCall (c.calls i) = c.inCalls + inCall x :=
  Threads.sum_update inCall c.calls i x

/-- the call of worker i goes on or is over: those of the others stay where they are -/
theorem Inv.others (h : Inv priority base c) (d : St P n T B N) (hw : ∀ j, j ≠ i → d.workers.w j = c.workers.w j)
    (hdelta : ∀ j, j ≠ i → d.deltaSketches j = c.deltaSketches j)
    (hlocked : d.session.updateLocked = c.session.updateLocked) {y : Option (Ingest.Call P n × Ingest.Pc P n)}
    (hcalls : d.calls = Function.update c.calls i y) (hown : ∀ x, y = some x → InCall d i x) :
    ∀ j x, d.calls j = some x → InCall d j x := by
  intro j x hx
  rw [hcalls] at hx
  by_cases hj : j = i
  · subst hj
    rw [Function.update_self] at hx
    exact hown x hx
  · rw [Function.update_of_ne hj] at hx
    obtain ⟨src, dsts, bs, hprocess, hpos, hcall, hdoing⟩ := h.calls j x hx
    refine ⟨src, dsts, bs, (hw j hj).trans hprocess, hpos, hcall, ?_⟩
    rw [hlocked, hdelta j hj]
    exact hdoing

/-- a worker calls `batch_callback` -/
theorem Inv.callback (h : Inv priority base c) {src : Fin n} {dsts : List (Fin n)} {bs : List UpdateBatch}
    (hw : c.workers.w i = .process (toBatch src dsts :: bs)) (hpos : 0 < dsts.length) (hnone : c.calls i = none) :
    Inv priority base (c.enter i src dsts) ∧ (c.enter i src dsts).abs = c.abs := by
  have hsum := inCalls_update c i (some (.applyUpdateBatch src dsts, .test src dsts))
  rw [hnone] at hsum
  have hcount : (c.enter i src dsts).inCalls = c.inCalls + dsts.length := hsum
  have htotal : (c.enter i src dsts).session.totalUpdates - (c.enter i src dsts).inCalls =
      c.session.totalUpdates - c.inCalls := by
    rw [hcount]
    exact Nat.add_sub_add_right ..
  have habs : (c.enter i src dsts).abs = c.abs := by
    simp only [St.abs, Session.St.hold, htotal]
    rfl
  refine ⟨⟨h.protocol, h.place, h.resting, ?_, ?_, habs ▸ h.guarded, habs ▸ h.account⟩, habs⟩
  · apply h.others (c.enter i src dsts) (fun _ _ => rfl) (fun _ _ => rfl) rfl rfl
    intro x hx
    cases hx
    exact ⟨src, dsts, bs, hw, hpos, rfl, rfl, rfl⟩
  · rw [hcount]
    exact Nat.add_le_add_right h.counted _

/-- the batch of a call counts as buffered -/
theorem hands_buffered {src : Fin n} {dsts : List (Fin n)} {bs : List UpdateBatch} {w : Workers.St N}
    (hw : c.workers.w i = .process (toBatch src dsts :: bs)) (hpos : 0 < dsts.length)
    (hs : workerStep c.workers i 0 = some w) :
    copies n (held c.workers) = Stream.batchCopies src dsts + copies n (held w) := by
  have hbatch : 0 < (toBatch src dsts).updVec.length := by simpa [toBatch] using hpos
  rw [held_passed hw hbatch hs, copies, Multiset.cons_bind, copiesOf_toBatch, ← copies]

theorem workerStep_process {s : Workers.St N} {b : UpdateBatch} {bs : List UpdateBatch} (hw : s.w i = .process (b :: bs)) :
    ∃ s', workerStep s i 0 = some s' := by
  simp only [workerStep, hw]
  split_ifs <;> exact ⟨_, rfl⟩

/-- a call for this batch that is over: the batch was buffered, and it is counted now -/
theorem Inv.over (h : Inv priority base c) {src : Fin n} {dsts : List (Fin n)} {pc : Ingest.Pc P n}
    (hx : c.calls i = some (.applyUpdateBatch src dsts, pc)) :
    Stream.batchCopies src dsts ≤ c.abs.stream.buffered ∧
      ∑ j, inCall (Function.update c.calls i none j) ≤ c.session.totalUpdates ∧
      c.session.totalUpdates - ∑ j, inCall (Function.update c.calls i none j) =
        c.session.totalUpdates - c.inCalls + dsts.length := by
  obtain ⟨src', dsts', bs, hw, hpos, hcall, -⟩ := h.calls i _ hx
  cases hcall
  obtain ⟨w, hs⟩ := workerStep_process hw
  have hsum : ∑ j, inCall (Function.update c.calls i none j) + dsts.length = c.inCalls := by
    have hsum := inCalls_update c i none
    rw [hx] at hsum
    exact hsum
  have hcounted := h.counted
  refine ⟨?_, by omega, by omega⟩
  rw [St.abs, hands_buffered hw hpos hs]
  exact (Multiset.le_add_right _ _).trans (Multiset.le_add_left _ _)

theorem Inv.refuse (h : Inv priority base c) (hT : 0 < T) (hrefused : c.session.refused = none) {src : Fin n}
    {dsts : List (Fin n)} {pc : Ingest.Pc P n} (hx : c.calls i = some (.applyUpdateBatch src dsts, pc))
    (hlocked : c.session.updateLocked = true) :
    Inv priority base (c.refuse i src dsts) ∧
      Session.step priority c.abs (.stream (.batch src dsts)) = some (c.refuse i src dsts).abs := by
  obtain ⟨hle, hcounted, htotal⟩ := h.over hx
  have habs : Session.step priority c.abs (.stream (.batch src dsts)) = some (c.refuse i src dsts).abs := by
    rw [Session.step_refuse (s := c.abs) hrefused hlocked hle]
    simp only [St.abs, Session.St.hold]
    rw [← htotal]
    rfl
  refine ⟨⟨h.protocol, h.place, h.resting, ?_, hcounted, Session.step_guarded hT h.account h.guarded habs,
    Session.step_account hT h.account habs⟩, habs⟩
  apply h.others (c.refuse i src dsts) (fun _ _ => rfl) (fun _ _ => rfl) rfl rfl
  intro x hx
  cases hx

theorem Inv.merged (h : Inv priority base c) (hT : 0 < T) (hrefused : c.session.refused = none) {src : Fin n}
    {dsts : List (Fin n)} {pc : Ingest.Pc P n} (hx : c.calls i = some (.applyUpdateBatch src dsts, pc))
    (hlocked : c.session.updateLocked = false) {w : Workers.St N} (hs : workerStep c.workers i 0 = some w) :
    Inv priority base (c.merged i src dsts w) ∧
      Session.step priority c.abs (.stream (.batch src dsts)) = some (c.merged i src dsts w).abs := by
  obtain ⟨hle, hcounted, htotal⟩ := h.over hx
  obtain ⟨src', dsts', bs, hw, hpos, hcall, -⟩ := h.calls i _ hx
  cases hcall
  have hbuffered : c.abs.stream.buffered - Stream.batchCopies src dsts =
      c.session.stream.buffered + copies n (held w) := by
    calc c.session.stream.buffered + copies n (held c.workers) - Stream.batchCopies src dsts
        = Stream.batchCopies src dsts + (c.session.stream.buffered + copies n (held w)) - Stream.batchCopies src dsts := by
          rw [hands_buffered hw hpos hs, add_left_comm]
      _ = c.session.stream.buffered + copies n (held w) := add_tsub_cancel_left _ _
  have habs : Session.step priority c.abs (.stream (.batch src dsts)) = some (c.merged i src dsts w).abs := by
    rw [Session.step_apply (s := c.abs) hrefused hlocked hle, hbuffered]
    simp only [St.abs, Session.St.hold]
    rw [← htotal]
    rfl
  obtain ⟨hd, -⟩ := workerStep_frame hs
  refine ⟨⟨h.protocol.step_behind (l := .worker i 0) trivial trivial hs, ?_, ?_, ?_, hcounted,
    Session.step_guarded hT h.account h.guarded habs, Session.step_account hT h.account habs⟩, habs⟩
  · simp only [St.merged, hd]
    exact h.place
  · intro hr
    exact absurd (hx.symm.trans (h.no_calls hr i)) (by simp)
  · have hbatch : 0 < (toBatch src dsts).updVec.length := by simpa [toBatch] using hpos
    apply h.others (c.merged i src dsts w) (fun j hj => ?_) (fun _ _ => rfl) rfl rfl
    · intro x hx
      cases hx
    · simp only [St.merged, workerStep_passed hw hbatch hs, Function.update_of_ne hj]

/-- **A statement of a call** is not seen, but its last one: it applies or refuses the batch. -/
theorem Inv.call (h : Inv priority base c) (hT : 0 < T) (hrefused : c.session.refused = none)
    {x : Ingest.Call P n × Ingest.Pc P n} (hx : c.calls i = some x) (hs : callStep c i x = some c') :
    Inv priority base c' ∧
      (c'.abs = c.abs ∨ ∃ src dsts, Session.step priority c.abs (.stream (.batch src dsts)) = some c'.abs) := by
  obtain ⟨src, dsts, bs, hw, hpos, hcall, hdoing⟩ := h.calls i x hx
  obtain ⟨call, pc⟩ := x
  simp only at hcall hdoing
  subst hcall
  rcases callStep_cases hdoing hs with ⟨pc', delta, hdoing', rfl⟩ | ⟨hlocked, rfl⟩ | ⟨hlocked, w, hstep, rfl⟩
  · have hsum := inCalls_update c i (some (.applyUpdateBatch src dsts, pc'))
    rw [hx] at hsum
    have hcount : (c.goto i (some (.applyUpdateBatch src dsts, pc')) delta).inCalls = c.inCalls := Nat.add_right_cancel hsum
    have habs : (c.goto i (some (.applyUpdateBatch src dsts, pc')) delta).abs = c.abs := by
      simp only [St.abs, hcount]
      rfl
    refine ⟨⟨h.protocol, h.place, h.resting, ?_, hcount ▸ h.counted, habs ▸ h.guarded, habs ▸ h.account⟩, .inl habs⟩
    apply h.others (c.goto i _ delta) (fun _ _ => rfl) (fun j hj => Function.update_of_ne hj _ _) rfl rfl
    intro x hx
    cases hx
    refine ⟨src, dsts, bs, hw, hpos, rfl, ?_⟩
    simp only [St.goto, Function.update_self]
    exact hdoing'
  · obtain ⟨hinv, habs⟩ := h.refuse hT hrefused hx hlocked
    exact ⟨hinv, .inr ⟨src, dsts, habs⟩⟩
  · obtain ⟨hinv, habs⟩ := h.merged hT hrefused hx hlocked hstep
    exact ⟨hinv, .inr ⟨src, dsts, habs⟩⟩

/-! ## A step -/

/-- the condition on a step: each flush begins in a fresh state of the workers -/
def FreshFlush (c : St P n T B N) : Label n T B N → Prop
  | .driver timeout => Workers.FreshFlush c.workers (.driver timeout)
  | .session _ | .form _ | .spill | .worker .. | .wake _ | .callback .. | .call _ => True

instance (c : St P n T B N) : (l : Label n T B N) → Decidable (FreshFlush c l)
  | .driver timeout => inferInstanceAs (Decidable (Workers.FreshFlush c.workers (.driver timeout)))
  | .session _ | .form _ | .spill | .worker .. | .wake _ | .callback .. | .call _ => inferInstanceAs (Decidable True)

/-- **A step is a step of the session, or nothing.** -/
theorem step_refines (h : Inv priority base c) (hT : 0 < T) {l : Label n T B N} (hf : FreshFlush c l)
    (hs : step priority c l = some c') :
    Inv priority base c' ∧ (c'.abs = c.abs ∨
      ∃ k, (l = .session k ∨ ∃ k', k = .stream k') ∧ Session.step priority c.abs k = some c'.abs) := by
  unfold step at hs
  split_ifs at hs with hr
  have hrefused : c.session.refused = none := by simpa using hr
  cases l with
  | session l =>
    simp only [act, Option.bind_eq_some_iff, Option.map_eq_some_iff] at hs
    obtain ⟨ms, hms, s, hstep, w, hw, rfl⟩ := hs
    obtain ⟨hinv, habs⟩ := h.session hT hms hstep hw
    exact ⟨hinv, .inr ⟨l, .inl rfl, habs⟩⟩
  | form batches =>
    simp only [act] at hs
    split_ifs at hs with hb
    cases hs
    exact (h.form hb.1 hb.2).imp_right .inl
  | spill =>
    obtain ⟨w, hw, rfl⟩ := Option.map_eq_some_iff.1 hs
    exact (h.spill hw).imp_right .inl
  | driver timeout =>
    simp only [act] at hs
    split_ifs at hs with hempty
    obtain ⟨w, hw, rfl⟩ := Option.map_eq_some_iff.1 hs
    have hnone : c.workers.d = .forceFlush → c.session.stream.buffered = 0 := fun hd =>
      by_contra fun hb => hempty ⟨hd, hb⟩
    obtain ⟨hinv, habs⟩ := h.driver hT hrefused hf hnone hw
    exact ⟨hinv, habs.imp_right fun habs => ⟨.stream .driver, .inr ⟨.driver, rfl⟩, habs⟩⟩
  | worker i k =>
    simp only [act] at hs
    split_ifs at hs with hp
    obtain ⟨w, hw, rfl⟩ := Option.map_eq_some_iff.1 hs
    exact (h.worker (by simpa using hp) hw).imp_right .inl
  | wake i =>
    obtain ⟨w, hw, rfl⟩ := Option.map_eq_some_iff.1 hs
    exact (h.wake hw).imp_right .inl
  | callback i src dsts =>
    simp only [act] at hs
    split at hs
    next b bs hw hnone =>
      split_ifs at hs with hb
      cases hs
      rw [hb.1] at hw
      exact (h.callback hw hb.2 hnone).imp_right .inl
    next => cases hs
  | call i =>
    obtain ⟨x, hx, hcall⟩ := Option.bind_eq_some_iff.1 hs
    obtain ⟨hinv, habs⟩ := h.call hT hrefused hx hcall
    exact ⟨hinv, habs.imp_right fun ⟨src, dsts, habs⟩ => ⟨.stream (.batch src dsts), .inr ⟨_, rfl⟩, habs⟩⟩

end GraphStreamingCC.Crew
