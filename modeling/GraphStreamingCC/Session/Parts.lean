/-
What the parts of a session rely on of one another.

A call of `boruvka_emulation` that returns leaves the components and a spanning forest, which is what the cache needs
(`restores_of_returned`); one that throws leaves what is still a union-find (`tidy_of_threw`). A query leaves everything but
the parents alone, and calls `boruvka_emulation` only if the cache is invalid. Between two calls of the driver only workers
move, and all updates that were handed over have begun.
-/
import GraphStreamingCC.Boruvka.Connectivity
import GraphStreamingCC.Driver.Stream

namespace GraphStreamingCC.Boruvka.Emulation

open Dsu Ingest ParentForest Runs SpanningForest

variable {P : Params} {n T : ℕ} {G : SimpleGraph (Fin n)} [DecidableRel G.Adj] {owner : Fin n → Fin T} {priority : Fin n → ℕ}
  {sketches : Fin n → Sketch P} {s s' : St P n T}

/-! ## What a call leaves -/

/-- a call that returns has restored the cache -/
theorem restores_of_returned (hn : n < 2 ^ 32) (hT : 0 < T) (hTn : T ≤ n) (hidx : ∀ v, (sketches v).sampleIdx = 0)
    (hb : ∀ v, (sketches v).buckets = graphSketch P G v) {ls : List (Label n T)}
    (hl : Meets (step owner priority) FinalLoad (start owner sketches) ls)
    (hc : Meets (step owner priority) (fun s _ => s.NoFalse G) (start owner sketches) ls)
    (hs : exec (step owner priority) (start owner sketches) ls = some s) {k : ℕ} {w : Boruvka.St P n T}
    (hphase : s.phase = .returned k w) :
    Ordered (Dsu.rank priority) w.parent ∧ (∀ v, ∀ u ∈ w.spanningForest v, v < u) ∧ Spans w.parent (setGraph w.spanningForest) ∧
      IsSpanningForest (setGraph w.spanningForest) G := by
  obtain ⟨hinv, hf⟩ := run_follows hn hT hTn hidx hl hs
  obtain ⟨hfits, hforest⟩ := run_fits hn hT hTn hidx hb hl hc hs
  have hsets := sets_eq_reachable hf hfits hinv hphase
  rw [hphase] at hforest
  refine ⟨hforest.ord, hforest.below, hforest.spans, hforest.le, hforest.spans.acyclic, ?_⟩
  intro u v huv
  apply (hforest.spans.reach u v).2
  rw [← sets_iff, hsets]
  exact huv

/-- so the sketches keep their buckets -/
theorem buckets_of_ended (h : Inv owner priority sketches s) {w : Boruvka.St P n T}
    (hphase : (∃ k, s.phase = .returned k w) ∨ ∃ e, s.phase = .threw e w) (v : Fin n) :
    (w.sketches v).buckets = (sketches v).buckets := by
  unfold Inv at h
  rcases hphase with ⟨k, hphase⟩ | ⟨e, hphase⟩
  · rw [hphase] at h
    exact h.2.2.2 v
  · rw [hphase] at h
    exact h.2.2 v

/-- only `join` ends a call -/
theorem of_step_threw {l : Label n T} (hs : step owner priority s l = some s') {e : OutOfSamplesException} {w : Boruvka.St P n T}
    (hphase : s'.phase = .threw e w) : ∃ mergeInstr, s.phase = .round mergeInstr w ∧ Boruvka.Done w := by
  cases l with
  | thread t o =>
    simp only [step] at hs
    split at hs
    next mergeInstr w' _ =>
      obtain ⟨w'', -, rfl⟩ := Option.map_eq_some_iff.1 hs
      cases hphase
    all_goals cases hs
  | create l =>
    simp only [step] at hs
    split at hs
    next w' c _ =>
      obtain ⟨c', -, rfl⟩ := Option.map_eq_some_iff.1 hs
      cases hphase
    all_goals cases hs
  | join =>
    rcases join_cases hs with ⟨mergeInstr, w', hround, hd, ⟨e', -, rfl⟩ | ⟨-, -, rfl⟩ | ⟨-, -, rfl⟩⟩ | ⟨w', c, -, -, rfl⟩
    · cases hphase
      exact ⟨mergeInstr, hround, hd⟩
    all_goals cases hphase

/-- a call that throws leaves a union-find and pairs with the smaller vertex first -/
theorem tidy_of_threw (hn : n < 2 ^ 32) (hT : 0 < T) (hTn : T ≤ n) (hidx : ∀ v, (sketches v).sampleIdx = 0)
    (hb : ∀ v, (sketches v).buckets = graphSketch P G v) {ls : List (Label n T)}
    (hl : Meets (step owner priority) FinalLoad (start owner sketches) ls)
    (hc : Meets (step owner priority) (fun s _ => s.NoFalse G) (start owner sketches) ls)
    (hs : exec (step owner priority) (start owner sketches) ls = some s) {e : OutOfSamplesException} {w : Boruvka.St P n T}
    (hphase : s.phase = .threw e w) : Ordered (Dsu.rank priority) w.parent ∧ ∀ v, ∀ u ∈ w.spanningForest v, v < u := by
  rcases List.eq_nil_or_concat ls with rfl | ⟨ls', l, rfl⟩
  · cases hs
    cases hphase
  · rw [List.concat_eq_append] at hl hc hs
    obtain ⟨u, hu, hlast⟩ := exec_append_some _ hs
    obtain ⟨s', hstep, hnil⟩ := exec_cons_some _ hlast
    cases hnil
    have hl' := (meets_append _ hu hl).1
    obtain ⟨mergeInstr, hround, -⟩ := of_step_threw hstep hphase
    have hinv := (run_follows hn hT hTn hidx hl' hu).1
    have hforest := (run_fits hn hT hTn hidx hb hl' (meets_append _ hu hc).1 hu).2
    rw [Inv, hround] at hinv
    rw [hround] at hforest
    exact ⟨hinv.2.2.dsu.ord, hforest.below⟩

end GraphStreamingCC.Boruvka.Emulation

namespace GraphStreamingCC.Eager

open ParentForest

variable {n T : ℕ} {priority : Fin n → ℕ} {s s' : St n T}

/-! ## The steps of a query -/

/-- a step of a query, outside `boruvka_emulation` -/
def Label.Asks : Label n T → Prop
  | .query _ | .querier _ | .team .. | .join => True
  | .preInsert .. | .thread .. | .boruvka .. => False

/-- it leaves everything but the parents and the query alone -/
theorem asks_frame {l : Label n T} (hl : l.Asks) (hs : step priority s l = some s') :
    s'.updates = s.updates ∧ s'.thr = s.thr ∧ s'.dsuValid = s.dsuValid ∧ s'.sharedDsuValid = s.sharedDsuValid := by
  cases l with
  | preInsert | thread | boruvka => exact hl.elim
  | query q =>
    simp only [step] at hs
    split_ifs at hs
    cases hs
    exact ⟨rfl, rfl, rfl, rfl⟩
  | querier o =>
    simp only [step, querierStep] at hs
    split at hs <;> (try split at hs) <;> cases hs <;> exact ⟨rfl, rfl, rfl, rfl⟩
  | team t o =>
    simp only [step] at hs
    split at hs
    · simp only [teamStep] at hs
      split at hs <;> (try split at hs) <;> cases hs <;> exact ⟨rfl, rfl, rfl, rfl⟩
    · cases hs
  | join =>
    simp only [step] at hs
    split at hs
    · split_ifs at hs
      cases hs
      exact ⟨rfl, rfl, rfl, rfl⟩
    · cases hs

/-- a query in `boruvka_emulation` waits for it -/
theorem not_asks {q : Query n T} (hq : s.query = .boruvka q) {l : Label n T} (hl : l.Asks) : step priority s l = none := by
  cases l with
  | preInsert | thread | boruvka => exact hl.elim
  | query q' => simp [step, hq, QueryPc.free]
  | querier o => simp only [step, querierStep, hq]
  | team t o => simp only [step, hq]
  | join => simp only [step, hq]

/-- a query that calls `boruvka_emulation` has found one of the flags cleared -/
theorem cleared_of_boruvka {l : Label n T} (hl : l.Asks) (hs : step priority s l = some s') {q : Query n T}
    (hq : s'.query = .boruvka q) : s.query.free = false ∧ (s.dsuValid = false ∨ s.sharedDsuValid = false) := by
  cases l with
  | preInsert | thread | boruvka => exact hl.elim
  | query q' =>
    simp only [step] at hs
    split_ifs at hs
    cases hs
    cases hq
  | team t o =>
    simp only [step] at hs
    split at hs
    · simp only [teamStep] at hs
      split at hs <;> (try split at hs) <;> cases hs <;> cases hq
    · cases hs
  | join =>
    simp only [step] at hs
    split at hs
    · split_ifs at hs
      cases hs
      cases hq
    · cases hs
  | querier o =>
    simp only [step, querierStep] at hs
    split at hs
    next a b hpc =>
      cases hs
      refine ⟨by rw [hpc]; rfl, .inl (Bool.eq_false_iff.2 fun hv => ?_)⟩
      simp only [hv, if_true] at hq
      cases hq
    next q' _ hpc =>
      cases hs
      refine ⟨by rw [hpc]; rfl, .inr (Bool.eq_false_iff.2 fun hv => ?_)⟩
      simp only [hv, if_true] at hq
      cases hq
    all_goals (try split at hs) <;> cases hs <;> cases hq

/-- only a query that finds no cached answer calls `boruvka_emulation` -/
theorem invalid_of_boruvka {l : Label n T} (hl : l.Asks) (h : Inv priority s) (hs : step priority s l = some s')
    {q : Query n T} (hq : s'.query = .boruvka q) : s.query.free = false ∧ s.dsuValid = false := by
  obtain ⟨hfree, hcleared⟩ := cleared_of_boruvka hl hs hq
  rw [h.flags_eq (h.alone hfree), or_self] at hcleared
  exact ⟨hfree, hcleared⟩

/-- a query that has been asked is not free -/
theorem busy_of_asks {l : Label n T} (hl : l.Asks) (hs : step priority s l = some s') :
    (∃ q, l = .query q) ∨ s.query.free = false := by
  cases l with
  | preInsert | thread | boruvka => exact hl.elim
  | query q => exact .inl ⟨q, rfl⟩
  | querier o =>
    right
    simp only [step, querierStep] at hs
    split at hs
    all_goals first | (rename_i hpc; rw [hpc]; rfl) | (cases hs)
  | team t o =>
    right
    simp only [step] at hs
    split at hs
    next hpc => rw [hpc]; rfl
    next => cases hs
  | join =>
    right
    simp only [step] at hs
    split at hs
    next hpc => rw [hpc]; rfl
    next => cases hs

/-- what `boruvka_emulation` leaves when it throws -/
theorem Inv.abandon (h : Inv priority s) (ha : ∀ t, s.thr t = none) (hv : s.dsuValid = false) {p : Fin n → Fin n}
    {forest : Fin n → Finset (Fin n)} (ho : Ordered (Dsu.rank priority) p) (hforest : ∀ v, ∀ u ∈ forest v, v < u) :
    Inv priority { s with parent := p, spanningForest := forest, query := .idle } where
  ord := ho
  calls := ⟨fun t => by rw [CallInv, ha t]; exact of_none, h.calls.mutex⟩
  oriented := hforest
  count := h.count
  cached hv' := by
    rw [hv] at hv'
    cases hv'
  flags := h.flags
  alone hf := by cases hf
  busy hf := by cases hf
  query := trivial

end GraphStreamingCC.Eager

namespace GraphStreamingCC.Stream

open Dsu Ingest Parity

variable {P : Params} {n T : ℕ} {priority : Fin n → ℕ} {stream : List (Fin n × Fin n)} {s s' : St P n T}

/-! ## The driver between two calls -/

/-- the union-find is another one, of the same updates -/
theorem Inv.withEager (h : Inv priority stream s) {eager : Eager.St n T} (heager : Eager.Inv priority eager)
    (hu : eager.updates = s.eager.updates) (hthr : eager.thr = s.eager.thr)
    (hv : s.eager.sharedDsuValid = true → eager.sharedDsuValid = true) : Inv priority stream { s with eager := eager } where
  eager := heager
  read := hu.symm ▸ h.read
  total v := hu.symm ▸ h.total v
  alone t ht := (congrFun hthr t).trans (h.alone t ht)
  returned := h.returned
  joined := h.joined
  cached hr := hv (h.cached hr)
  flushed := h.flushed

/-- the sketches are others, with the same buckets -/
theorem Inv.withSketches (h : Inv priority stream s) (sketches : Fin n → Sketch P)
    (hb : ∀ v, (sketches v).buckets = (s.sketches v).buckets) : Inv priority stream { s with sketches := sketches } where
  eager := h.eager
  read := h.read
  total v := (hb v).symm ▸ h.total v
  alone := h.alone
  returned := h.returned
  joined := h.joined
  cached := h.cached
  flushed := h.flushed

/-- the stream threads have returned -/
theorem Inv.idle (h : Inv priority stream s) (hd : s.driver ≠ .processStream) : ∀ t, s.eager.thr t = none :=
  fun t => h.alone t (by rw [h.joined hd t]; rfl)

/-- all updates have begun -/
theorem Inv.perm (h : Inv priority stream s) (hT : 0 < T) (hd : s.driver ≠ .processStream) : s.eager.updates.Perm stream := by
  have hret := h.joined hd
  have hread := h.read
  have harr : ∀ t, (s.readers t).updateArray = [] := fun t => (h.returned t (hret t)).1
  simp only [harr, (h.returned ⟨0, hT⟩ (hret _)).2, Multiset.coe_nil, Finset.sum_const_zero, add_zero,
    Multiset.coe_eq_coe] at hread
  exact hread

theorem Inv.graph (h : Inv priority stream s) (hT : 0 < T) (hd : s.driver ≠ .processStream) :
    oddGraph s.eager.updates = oddGraph stream := oddGraph_congr ((h.perm hT hd).map _)

/-- what a step does to the union-find -/
theorem step_eager {l : Label n T} (hs : step priority s l = some s') :
    s'.eager = s.eager ∨ (∃ t e, Eager.step priority s.eager (.preInsert t e) = some s'.eager) ∨
      ∃ t o, Eager.step priority s.eager (.thread t o) = some s'.eager := by
  cases l with
  | getUpdateBuffer t k =>
    simp only [step] at hs
    split_ifs at hs <;> cases hs <;> exact .inl rfl
  | reader t o =>
    simp only [step, readerStep] at hs
    split at hs
    · split at hs
      · cases hs
      · obtain ⟨eager, he, rfl⟩ := Option.map_eq_some_iff.1 hs
        exact .inr (.inl ⟨_, _, he⟩)
    · split_ifs at hs
      · cases hs
        exact .inl rfl
      · obtain ⟨eager, he, rfl⟩ := Option.map_eq_some_iff.1 hs
        exact .inr (.inr ⟨_, _, he⟩)
    · cases hs
      exact .inl rfl
    · cases hs
      exact .inl rfl
    · cases hs
  | batch src dsts =>
    simp only [step] at hs
    split_ifs at hs
    cases hs
    exact .inl rfl
  | driver =>
    simp only [step] at hs
    split at hs <;> (try split_ifs at hs) <;> cases hs <;> exact .inl rfl

/-- a query that is not running is where it was, or forgotten -/
theorem step_query {l : Label n T} (h : Eager.Inv priority s.eager)
    (hexact : s.eager.query.Exact s.eager.parent (oddGraph s.eager.updates)) (hs : step priority s l = some s') :
    s'.eager.query.Exact s'.eager.parent (oddGraph s'.eager.updates) ∧ s'.eager.query.free = s.eager.query.free := by
  rcases step_eager hs with he | ⟨t, e, he⟩ | ⟨t, o, he⟩
  · rw [he]
    exact ⟨hexact, rfl⟩
  · refine ⟨Eager.step_exact (l := .preInsert t e) trivial h hexact he, ?_⟩
    simp only [Eager.step] at he
    split_ifs at he with hfree
    rw [hfree.1, ← Option.some.inj he]
    rfl
  · refine ⟨Eager.step_exact (l := .thread t o) trivial h hexact he, ?_⟩
    simp only [Eager.step] at he
    split at he
    · cases he
    · rw [(Eager.insertStep_frame he).1]

/-- between two calls only workers move -/
theorem batch_of_ready (h : Inv priority stream s) {c : Bool} (hr : s.driver = .ready c) {l : Label n T}
    (hs : step priority s l = some s') : ∃ src dsts, l = .batch src dsts := by
  have hret := h.joined (by rw [hr]; simp)
  cases l with
  | getUpdateBuffer t k => simp [step, hret t] at hs
  | reader t o => simp [step, readerStep, hret t] at hs
  | batch src dsts => exact ⟨src, dsts, rfl⟩
  | driver => simp [step, hr] at hs

theorem step_sampleIdx {l : Label n T} (h : ∀ v, (s.sketches v).sampleIdx = 0) (hs : step priority s l = some s') (v : Fin n) :
    (s'.sketches v).sampleIdx = 0 := by
  cases l with
  | getUpdateBuffer t k =>
    simp only [step] at hs
    split_ifs at hs <;> cases hs <;> exact h v
  | reader t o =>
    simp only [step, readerStep] at hs
    split at hs <;> (try split at hs) <;> (try obtain ⟨eager, he, rfl⟩ := Option.map_eq_some_iff.1 hs) <;>
      (try cases hs) <;> exact h v
  | batch src dsts =>
    simp only [step] at hs
    split_ifs at hs
    cases hs
    simp only [applyUpdateBatch]
    by_cases hv : v = src
    · subst hv
      rw [Function.update_self]
      exact h v
    · rw [Function.update_of_ne hv]
      exact h v
  | driver =>
    simp only [step] at hs
    split at hs <;> (try split_ifs at hs) <;> cases hs <;> exact h v

/-- `process_stream_until` is called again -/
theorem Inv.processStream (h : Inv priority stream s) (hT : 0 < T) (hd : s.driver ≠ .processStream) (us : List (Fin n × Fin n)) :
    Inv priority (us ++ stream) { s with stream := us, readers := fun _ => ⟨[], .next⟩, driver := .processStream } where
  eager := h.eager
  read := by
    rw [Multiset.coe_eq_coe.2 (h.perm hT hd)]
    simpa using List.perm_append_comm
  total v := by
    have htotal := h.total v
    simp only [h.joined hd, ReaderPc.owed, bufferSum_zero, Finset.sum_const_zero, add_zero] at htotal ⊢
    exact htotal
  alone t _ := h.idle hd t
  returned t hr := by cases hr
  joined hne := absurd rfl hne
  cached hr := by cases hr
  flushed hr := by cases hr

/-- `prep_query` is called -/
theorem Inv.prepQuery (h : Inv priority stream s) (hd : s.driver ≠ .processStream) :
    Inv priority stream { s with driver := .prepQuery } where
  eager := h.eager
  read := h.read
  total := h.total
  alone := h.alone
  returned := h.returned
  joined _ := h.joined hd
  cached hr := by cases hr
  flushed hr := by cases hr

end GraphStreamingCC.Stream
