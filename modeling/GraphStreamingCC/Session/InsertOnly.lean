/-
A session of insertions.

`pre_insert` gives the cache up only when it finds the edge that it was called for in the spanning forest. The forest holds
edges of updates that are over (`Cached.le`), so that this edge has been updated before. If every edge is updated once, the
cache therefore stays valid under every schedule: no query calls `boruvka_emulation`, `prep_query` never flushes, and the
answers do not depend on the sketches at all.
-/
import GraphStreamingCC.Session.Answers

namespace GraphStreamingCC

open Boruvka Dsu Parity Runs

variable {P : Params} {n T B : ℕ} {priority : Fin n → ℕ}

namespace Eager

open SpanningForest

variable {s s' : St n T}

/-! ## The cache -/

/-- the cache is valid, and nobody is about to give it up -/
structure Valid (s : St n T) : Prop where
  valid : s.dsuValid = true
  shared : s.sharedDsuValid = true
  calls : ∀ t, ∀ c ∈ s.thr t, c.pc ≠ .clearValid ∧ c.pc ≠ .clearShared
  query : ∀ q, s.query ≠ .boruvka q

theorem valid_init : Valid (init n T) := ⟨rfl, rfl, fun t c hc => (by cases hc), fun q hq => by cases hq⟩

/-- an edge of the forest that is updated is updated again -/
theorem Inv.twice (h : Inv priority s) (hv : s.dsuValid = true) {t : Fin T} {c : PreInsert n} (hc : s.thr t = some c)
    (hpc : c.pc = .find) (hf : c.dst ∈ s.spanningForest c.src) : ¬ (s.updates.map pairEdge).Nodup := by
  have hadj : (forestGraph s.spanningForest s.thr).Adj c.src c.dst :=
    forestGraph_adj.2 ⟨(h.oriented _ _ hf).ne, .inl (.inl hf)⟩
  have hseen : s(c.src, c.dst) ∈ s.seen.map pairEdge := by
    have hodd := (oddGraph_adj.1 ((h.cached hv).le hadj)).1
    exact List.mem_toFinset.1 (Finset.mem_filter.1 hodd).1
  have howed : s(c.src, c.dst) ∈ ∑ t', owed (s.thr t') := by
    apply Multiset.mem_sum.2
    refine ⟨t, Finset.mem_univ t, ?_⟩
    simp [owed, hc, hpc, InsertPc.unseen]
  intro hnodup
  have hcount := h.count
  rw [← Multiset.coe_nodup, hcount] at hnodup
  exact Multiset.disjoint_left.1 (Multiset.nodup_add.1 hnodup).2.2 (Multiset.mem_coe.2 hseen) howed

theorem insertStep_valid (h : Inv priority s) (hs : Valid s) (hnew : (s.updates.map pairEdge).Nodup) {t : Fin T} {o : Side}
    {c : PreInsert n} (hc : s.thr t = some c) (hstep : insertStep priority s t o c = some s') : Valid s' := by
  have hgo : ∀ {d : Option (PreInsert n)}, (∀ c' ∈ d, c'.pc ≠ .clearValid ∧ c'.pc ≠ .clearShared) →
      ∀ t', ∀ c' ∈ Function.update s.thr t d t', c'.pc ≠ .clearValid ∧ c'.pc ≠ .clearShared := fun hd =>
    Threads.forall_update (Q := fun _ (x : Option (PreInsert n)) => ∀ c' ∈ x, c'.pc ≠ .clearValid ∧ c'.pc ≠ .clearShared)
      hs.calls hd
  have hpc : ∀ {pc : InsertPc n}, pc ≠ .clearValid → pc ≠ .clearShared →
      ∀ c' ∈ some { c with pc := pc }, c'.pc ≠ .clearValid ∧ c'.pc ≠ .clearShared := by
    intro pc h1 h2 c' hc'
    cases hc'
    exact ⟨h1, h2⟩
  obtain ⟨hnot, hnot'⟩ := hs.calls t c hc
  unfold insertStep at hstep
  split at hstep
  next =>
    rw [if_pos hs.valid] at hstep
    cases hstep
    exact ⟨hs.valid, hs.shared, hgo (hpc (by simp) (by simp)), hs.query⟩
  next =>
    split_ifs at hstep
    cases hstep
    exact ⟨hs.valid, hs.shared, hgo (hpc (by simp) (by simp)), hs.query⟩
  next m _ =>
    split at hstep
    · cases hstep
      exact ⟨hs.valid, hs.shared, hgo (hpc (by simp) (by simp)), hs.query⟩
    · split_ifs at hstep <;> cases hstep <;> exact ⟨hs.valid, hs.shared, hgo (hpc (by simp) (by simp)), hs.query⟩
  next =>
    cases hstep
    exact ⟨hs.valid, hs.shared, hgo (hpc (by simp) (by simp)), hs.query⟩
  next hfind =>
    rw [if_neg fun hf => h.twice hs.valid hc hfind hf hnew] at hstep
    cases hstep
    exact ⟨hs.valid, hs.shared, hgo (hpc (by simp) (by simp)), hs.query⟩
  next hclear => exact absurd hclear hnot
  next hclear => exact absurd hclear hnot'
  next =>
    cases hstep
    exact ⟨hs.valid, hs.shared, hgo of_none, hs.query⟩

theorem asks_valid {l : Label n T} (hl : l.Asks) (h : Inv priority s) (hs : Valid s) (hstep : step priority s l = some s') :
    Valid s' := by
  obtain ⟨-, hthr, hv, hsh⟩ := asks_frame hl hstep
  refine ⟨hv.trans hs.valid, hsh.trans hs.shared, hthr ▸ hs.calls, fun q hq => ?_⟩
  have hinvalid := (invalid_of_boruvka hl h hstep hq).2
  rw [hs.valid] at hinvalid
  cases hinvalid

end Eager

/-! ## The session -/

namespace Session

open Eager Service

variable {s s' : St P n T B}

/-- no query has needed the sketches -/
structure Cached (s : St P n T B) : Prop where
  eager : Valid s.stream.eager
  driver : s.stream.driver ≠ .flush ∧ s.stream.driver ≠ .ready false
  boruvka : s.boruvka = none
  unlocked : s.updateLocked = false
  refused : s.refused = none
  answered : .failed ∉ s.history

theorem cached_start : Cached (start P n T B) :=
  ⟨valid_init, ⟨by simp [start, startOf], by simp [start, startOf]⟩, rfl, rfl, rfl, List.not_mem_nil⟩

/-- the updates that have begun are among those handed over -/
theorem nodup_updates (h : Stream.Inv priority (updates s.history) s.stream)
    (hnew : ((updates s.history).map pairEdge).Nodup) : (s.stream.eager.updates.map pairEdge).Nodup := by
  have hle : (s.stream.eager.updates : Multiset (Fin n × Fin n)) ≤ updates s.history := by
    rw [← h.read, add_assoc]
    exact Multiset.le_add_right _ _
  have hmap := Multiset.map_le_map (f := pairEdge) hle
  rw [Multiset.map_coe, Multiset.map_coe] at hmap
  exact Multiset.coe_nodup.1 (Multiset.nodup_of_le hmap (Multiset.coe_nodup.2 hnew))

theorem stream_valid (h : Inv priority s) (hs : Cached s) (hnew : ((updates s.history).map pairEdge).Nodup)
    {l : Stream.Label n T} {stream : Stream.St P n T} (hstep : Stream.step priority s.stream l = some stream) :
    Valid stream.eager := by
  rcases Stream.step_eager hstep with he | ⟨t, e, he⟩ | ⟨t, o, he⟩
  · rw [he]
    exact hs.eager
  · simp only [Eager.step] at he
    split_ifs at he with hfree
    rw [← Option.some.inj he]
    refine ⟨hs.eager.valid, hs.eager.shared, ?_, fun q hq => by cases hq⟩
    refine Threads.forall_update
      (Q := fun _ (x : Option (PreInsert n)) => ∀ c' ∈ x, c'.pc ≠ .clearValid ∧ c'.pc ≠ .clearShared) hs.eager.calls ?_
    intro c hc
    cases hc
    simp
  · simp only [Eager.step] at he
    split at he
    next => cases he
    next c hc => exact insertStep_valid h.stream.eager hs.eager (nodup_updates h.stream hnew) hc he

theorem stream_driver (hs : Cached s) {l : Stream.Label n T} {stream : Stream.St P n T}
    (hstep : Stream.step priority s.stream l = some stream) : stream.driver ≠ .flush ∧ stream.driver ≠ .ready false := by
  cases l with
  | getUpdateBuffer t k =>
    simp only [Stream.step] at hstep
    split_ifs at hstep <;> cases hstep <;> exact hs.driver
  | reader t o =>
    simp only [Stream.step, Stream.readerStep] at hstep
    split at hstep <;> (try split at hstep) <;> (try obtain ⟨eager, he, rfl⟩ := Option.map_eq_some_iff.1 hstep) <;>
      (try cases hstep) <;> exact hs.driver
  | batch src dsts =>
    simp only [Stream.step] at hstep
    split_ifs at hstep
    cases hstep
    exact hs.driver
  | driver =>
    simp only [Stream.step, hs.eager.shared, if_true] at hstep
    split at hstep
    · split_ifs at hstep
      cases hstep
      simp
    · cases hstep
      simp
    next hflush => exact absurd hflush hs.driver.1
    next => cases hstep

theorem streamStep_cached (h : Inv priority s) (hs : Cached s) (hnew : ((updates s.history).map pairEdge).Nodup)
    {l : Stream.Label n T} (hstep : streamStep priority s l = some s') : Cached s' := by
  obtain ⟨stream, he, rfl⟩ := Option.map_eq_some_iff.1 hstep
  have hvalid := stream_valid h hs hnew he
  have hdriver := stream_driver hs he
  cases l with
  | batch src dsts =>
    simp only [hs.unlocked, Bool.false_eq_true, if_false]
    exact ⟨hvalid, hdriver, hs.boruvka, rfl, hs.refused, hs.answered⟩
  | getUpdateBuffer | reader | driver => exact ⟨hvalid, hdriver, hs.boruvka, hs.unlocked, hs.refused, hs.answered⟩

theorem eagerStep_cached (h : Inv priority s) (hs : Cached s) {l : Eager.Label n T} (hl : l.Asks)
    (hstep : eagerStep priority s l = some s') : Cached s' := by
  obtain ⟨eager, he, rfl⟩ := Option.map_eq_some_iff.1 hstep
  refine ⟨asks_valid hl h.stream.eager hs.eager he, hs.driver, hs.boruvka, hs.unlocked, hs.refused, ?_⟩
  intro hfailed
  cases hq : eager.query with
  | answered a =>
    simp only [hq, record] at hfailed
    rcases List.mem_cons.1 hfailed with ha | hmem
    · cases ha
    · exact hs.answered hmem
  | idle | testValid | boruvka | ready | team | first | second =>
    simp only [hq, record] at hfailed
    exact hs.answered hfailed

theorem step_cached (h : Inv priority s) (hs : Cached s) (hnew : ((updates s.history).map pairEdge).Nodup)
    {l : Label n T B} (hstep : step priority s l = some s') : Cached s' := by
  unfold step at hstep
  split_ifs at hstep
  cases l with
  | processStreamUntil us =>
    simp only [act] at hstep
    split_ifs at hstep
    cases hstep
    exact ⟨hs.eager, ⟨by simp, by simp⟩, hs.boruvka, hs.unlocked, hs.refused, by simp [hs.answered]⟩
  | prepQuery =>
    simp only [act] at hstep
    split_ifs at hstep
    cases hstep
    exact ⟨hs.eager, ⟨by simp, by simp⟩, hs.boruvka, hs.unlocked, hs.refused, hs.answered⟩
  | stream l => exact streamStep_cached h hs hnew hstep
  | query q =>
    simp only [act] at hstep
    split at hstep
    next => exact eagerStep_cached (l := .query q) h hs trivial hstep
    all_goals cases hstep
  | querier o => exact eagerStep_cached (l := .querier o) h hs trivial hstep
  | team t o => exact eagerStep_cached (l := .team t o) h hs trivial hstep
  | join => exact eagerStep_cached (l := .join) h hs trivial hstep
  | boruvka owner =>
    simp only [act] at hstep
    split at hstep
    next q hq _ => exact absurd hq (hs.eager.query q)
    next => cases hstep
  | emulate l => simp [act, hs.boruvka] at hstep
  | finish => simp [act, hs.boruvka] at hstep

/-- what the history holds is there to stay -/
theorem updates_suffix {l : Label n T B} (hstep : step priority s l = some s') :
    ∃ us, updates s'.history = us ++ updates s.history := by
  unfold step at hstep
  split_ifs at hstep
  have hasks : ∀ {l : Eager.Label n T}, eagerStep priority s l = some s' → updates s'.history = updates s.history := by
    intro l hs
    obtain ⟨eager, -, rfl⟩ := Option.map_eq_some_iff.1 hs
    exact updates_record _ _
  cases l with
  | processStreamUntil us =>
    simp only [act] at hstep
    split_ifs at hstep
    cases hstep
    exact ⟨us, rfl⟩
  | prepQuery =>
    simp only [act] at hstep
    split_ifs at hstep
    cases hstep
    exact ⟨[], rfl⟩
  | stream l =>
    obtain ⟨stream, -, rfl⟩ := Option.map_eq_some_iff.1 hstep
    refine ⟨[], ?_⟩
    cases l with
    | batch src dsts =>
      simp only
      split_ifs <;> rfl
    | getUpdateBuffer | reader | driver => rfl
  | query q =>
    simp only [act] at hstep
    split at hstep
    next => exact ⟨[], hasks hstep⟩
    all_goals cases hstep
  | querier o => exact ⟨[], hasks hstep⟩
  | team t o => exact ⟨[], hasks hstep⟩
  | join => exact ⟨[], hasks hstep⟩
  | boruvka owner =>
    simp only [act] at hstep
    split at hstep <;> cases hstep
    exact ⟨[], rfl⟩
  | emulate l =>
    simp only [act] at hstep
    split at hstep
    · obtain ⟨e, -, rfl⟩ := Option.map_eq_some_iff.1 hstep
      exact ⟨[], rfl⟩
    · cases hstep
  | finish =>
    simp only [act, finish] at hstep
    split at hstep
    · split at hstep
      · obtain ⟨eager, -, rfl⟩ := Option.map_eq_some_iff.1 hstep
        exact ⟨[], rfl⟩
      · cases hstep
        exact ⟨[], rfl⟩
      all_goals cases hstep
    · cases hstep

/-- **A session of insertions needs no sketch.** In a session of a new algorithm in which no edge is updated twice, under
any schedule, the cache stays valid: `boruvka_emulation` is never called, `prep_query` never flushes, and no query throws.
Every answer is right for the updates handed over before it, if every `find_root` of the team that fills `parent_arr` makes
its last load where that load gives a root. -/
theorem insert_only (hn : n < 2 ^ 32) (hT : 0 < T) (hB : 0 < B) (hBn : B ≤ n) {s : St P n T B} {ls : List (Label n T B)}
    (hl : Meets (step priority) FinalLoad (start P n T B) ls) (hs : exec (step priority) (start P n T B) ls = some s)
    (hnew : ((updates s.history).map pairEdge).Nodup) :
    Right Correct s.history ∧ .failed ∉ s.history ∧ s.boruvka = none ∧ s.stream.eager.sharedDsuValid = true ∧
      s.stream.driver ≠ .flush := by
  have h : ((updates s.history).map pairEdge).Nodup → Inv priority s ∧ Cached s := by
    refine exec_invariant_of_meets (I := fun s => ((updates s.history).map pairEdge).Nodup → Inv priority s ∧ Cached s) _
      (fun s l s' h hl hs hnew' => ?_) (fun _ => ⟨inv_begins .new, cached_start⟩) hl hs
    have hnew : ((updates s.history).map pairEdge).Nodup := by
      obtain ⟨us, hus⟩ := updates_suffix hs
      rw [hus, List.map_append] at hnew'
      exact hnew'.of_append_right
    obtain ⟨hinv, hcached⟩ := h hnew
    have hfalse : NoFalse s l := by
      cases l with
      | emulate l =>
        intro x hx
        rw [hcached.boruvka] at hx
        cases hx
      | processStreamUntil | prepQuery | stream | query | querier | team | join | boruvka | finish => trivial
    exact ⟨step_inv hT hn hB hBn hinv hl hfalse hs, step_cached hinv hcached hnew hs⟩
  obtain ⟨hinv, hcached⟩ := h hnew
  exact ⟨hinv.right, hcached.answered, hcached.boruvka, hcached.eager.shared, hcached.driver.1⟩

open Threads in
/-- one insertion, and `connected_components` with a thread for each vertex -/
def insertSession : List (Label 2 2 2) := List.flatten [
  [.processStreamUntil [(fst, snd)], .stream (.getUpdateBuffer fst 1)], List.replicate 18 (.stream (.reader fst .left)),
  [.stream (.getUpdateBuffer fst 0), .stream (.getUpdateBuffer snd 0), .stream .driver, .stream .driver,
    .query (.connectedComponents id), .querier .left, .querier .left],
  List.replicate 5 (.team snd .left), List.replicate 5 (.team fst .left), [.join]]

theorem insert_only_pair : ∃ s, exec (step Emulation.pairPriority) (start Emulation.pair 2 2 2) insertSession = some s ∧
    latestSize s.history = some 1 ∧ Right Correct s.history := by
  have hrun : ∃ s ∈ exec (step Emulation.pairPriority) (start Emulation.pair 2 2 2) insertSession,
      latestSize s.history = some 1 ∧ ((updates s.history).map pairEdge).Nodup := by
    decide +kernel
  obtain ⟨s, hs, hlatest, hnew⟩ := hrun
  have hload : Meets (step Emulation.pairPriority) FinalLoad (start Emulation.pair 2 2 2) insertSession := by decide +kernel
  exact ⟨s, hs, hlatest, (insert_only (by norm_num) (by norm_num) (by norm_num) le_rfl hload hs hnew).1⟩

end Session

end GraphStreamingCC
