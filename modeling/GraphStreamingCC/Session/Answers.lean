/-
Are the answers of a session right?

Each part of a session has an invariant of its own; `Inv` says where they meet. A query calls `boruvka_emulation` only when
`prep_query` has flushed, so that the vertex sketches hold the graph of all updates; what it leaves goes back into the
union-find; and the updates that have begun are those of the history.

`answers_right`: in a session of any length, of a new algorithm or of one read from a file, every answer is right for the
updates that came before it, if no index set that occurs has a false checksum and every `find_root` of a team makes its
last load where that load gives a root.
-/
import GraphStreamingCC.Session.Model
import GraphStreamingCC.Session.Parts

namespace GraphStreamingCC.Session

open Boruvka Dsu Eager Ingest Parity Runs Service

variable {P : Params} {n T B : ℕ} {priority : Fin n → ℕ} {s s' : St P n T B}

/-! ## Conditions on a run -/

/-- a `find_root` that a team is about to return from loads a root -/
def FinalLoad (s : St P n T B) : Label n T B → Prop
  | .team t _ => s.stream.eager.query.FinalLoad s.stream.eager.parent t
  | .emulate l => ∀ x ∈ s.boruvka, Emulation.FinalLoad x.2 l
  | .processStreamUntil _ | .prepQuery | .stream _ | .query _ | .querier _ | .join | .boruvka _ | .finish => True

/-- no index set that occurs in the round of `boruvka_emulation` has a false checksum -/
def NoFalse (s : St P n T B) : Label n T B → Prop
  | .emulate _ => ∀ x ∈ s.boruvka, x.2.NoFalse (oddGraph (updates s.history))
  | .processStreamUntil _ | .prepQuery | .stream _ | .query _ | .querier _ | .team .. | .join | .boruvka _ | .finish => True

instance (s : St P n T B) : (l : Label n T B) → Decidable (FinalLoad s l)
  | .team t _ => inferInstanceAs (Decidable (s.stream.eager.query.FinalLoad s.stream.eager.parent t))
  | .emulate l => inferInstanceAs (Decidable (∀ x ∈ s.boruvka, Emulation.FinalLoad x.2 l))
  | .processStreamUntil _ | .prepQuery | .stream _ | .query _ | .querier _ | .join | .boruvka _ | .finish =>
    inferInstanceAs (Decidable True)

/-! ## The invariant -/

/-- the answer is right for the graph of these updates -/
def Correct (us : List (Fin n × Fin n)) (a : Answer n) : Prop := a.Correct (oddGraph us)

/-- a run of `boruvka_emulation` on these sketches has come this far -/
def Ran (priority : Fin n → ℕ) (G : SimpleGraph (Fin n)) [DecidableRel G.Adj] (sketches : Fin n → Sketch P)
    (x : (Fin n → Fin B) × Emulation.St P n B) : Prop :=
  ∃ ls, exec (Emulation.step x.1 priority) (Emulation.start x.1 sketches) ls = some x.2 ∧
    Meets (Emulation.step x.1 priority) Emulation.FinalLoad (Emulation.start x.1 sketches) ls ∧
    Meets (Emulation.step x.1 priority) (fun s _ => s.NoFalse G) (Emulation.start x.1 sketches) ls

structure Inv (priority : Fin n → ℕ) (s : St P n T B) : Prop where
  stream : Stream.Inv priority (updates s.history) s.stream
  exact : s.stream.eager.query.Exact s.stream.eager.parent (oddGraph s.stream.eager.updates)
  sampleIdx : ∀ v, (s.stream.sketches v).sampleIdx = 0
  asked : s.stream.eager.query.free = false → ∃ c, s.stream.driver = .ready c
  flushed : ∀ q, s.stream.eager.query = .boruvka q → s.stream.driver = .ready false ∧ s.stream.eager.dsuValid = false
  boruvka : ∀ x ∈ s.boruvka, (∃ q, s.stream.eager.query = .boruvka q) ∧ s.updateLocked = true ∧
    Ran priority (oddGraph (updates s.history)) s.stream.sketches x
  locked : s.updateLocked = true → s.boruvka = none → .failed ∈ s.history
  refused : ∀ x ∈ s.refused, x.2 ≠ [] → .failed ∈ s.history
  right : Right Correct s.history

theorem ran_start (priority : Fin n → ℕ) (G : SimpleGraph (Fin n)) [DecidableRel G.Adj] (sketches : Fin n → Sketch P)
    (owner : Fin n → Fin B) : Ran priority G sketches (owner, Emulation.start owner sketches) := ⟨[], rfl, trivial, trivial⟩

theorem Ran.step {G : SimpleGraph (Fin n)} [DecidableRel G.Adj] {sketches : Fin n → Sketch P} {owner : Fin n → Fin B}
    {e e' : Emulation.St P n B} (h : Ran priority G sketches (owner, e)) {l : Emulation.Label n B}
    (hl : Emulation.FinalLoad e l) (hc : e.NoFalse G) (hs : Emulation.step owner priority e l = some e') :
    Ran priority G sketches (owner, e') := by
  obtain ⟨ls, hrun, hload, hfalse⟩ := h
  have hone : exec (Emulation.step owner priority) e [l] = some e' := by rw [exec_cons _ _ hs, exec_nil]
  refine ⟨ls ++ [l], (exec_append _ _ hrun).trans hone, ?_, ?_⟩
  · exact meets_append_of _ hrun hload ((meets_cons _ [] hs).2 ⟨hl, trivial⟩)
  · exact meets_append_of _ hrun hfalse ((meets_cons _ [] hs).2 ⟨hc, trivial⟩)

/-- no call of the driver is running -/
theorem not_processStream {d : Stream.DriverPc} (h : between d = true) : d ≠ .processStream := by
  rintro rfl
  cases h

theorem Inv.ready (h : Inv priority s) (hf : s.stream.eager.query.free = false) : s.stream.driver ≠ .processStream := by
  obtain ⟨c, hc⟩ := h.asked hf
  rw [hc]
  simp

/-- while `boruvka_emulation` runs the query waits -/
theorem Inv.no_boruvka (h : Inv priority s) (hq : ∀ q, s.stream.eager.query ≠ .boruvka q) : s.boruvka = none := by
  cases hb : s.boruvka with
  | none => rfl
  | some x =>
    obtain ⟨⟨q, hx⟩, -⟩ := h.boruvka x hb
    exact absurd hx (hq q)

theorem free_ne_boruvka {pc : QueryPc n T} (h : pc.free = true) (q : Query n T) : pc ≠ .boruvka q := by
  rintro rfl
  cases h

/-- the vertex sketches hold the graph when `boruvka_emulation` is called -/
theorem Inv.buckets (h : Inv priority s) (hT : 0 < T) {q : Query n T} (hq : s.stream.eager.query = .boruvka q) (v : Fin n) :
    (s.stream.sketches v).buckets = graphSketch P (oddGraph (updates s.history)) v := by
  have hr := (h.flushed q hq).1
  have hledger := (h.stream.ready hT hr).1 v
  rwa [h.stream.flushed hr, Stream.bufferSum_zero, add_zero] at hledger

theorem updates_record (history : List (Event (Fin n × Fin n) (Answer n))) (pc : QueryPc n T) :
    updates (record history pc) = updates history := by
  cases pc <;> rfl

theorem failed_mem_record {history : List (Event (Fin n × Fin n) (Answer n))} (h : .failed ∈ history) (pc : QueryPc n T) :
    .failed ∈ record history pc := by
  cases pc with
  | answered a => exact List.mem_cons_of_mem _ h
  | idle | testValid | boruvka | ready | team | first | second => exact h

theorem right_record (h : Right Correct s.history) {pc : QueryPc n T}
    (hpc : ∀ a, pc = .answered a → Correct (updates s.history) a) : Right Correct (record s.history pc) := by
  cases pc with
  | answered a =>
    apply h.cons
    intro a' he
    cases he
    exact hpc a rfl
  | idle | testValid | boruvka | ready | team | first | second => exact h

/-! ## One step -/

section steps

variable (hT : 0 < T)
include hT

/-- the query makes a step -/
theorem eagerStep_inv (h : Inv priority s) {l : Eager.Label n T} (hl : l.Asks)
    (hready : ∀ q, l = .query q → ∃ c, s.stream.driver = .ready c) (hload : Eager.FinalLoad s.stream.eager l)
    (hs : eagerStep priority s l = some s') : Inv priority s' := by
  obtain ⟨eager, he, rfl⟩ := Option.map_eq_some_iff.1 hs
  have hrestores : Restores priority s.stream.eager l := by
    cases l <;> trivial
  have hdriver : ∃ c, s.stream.driver = .ready c := by
    rcases busy_of_asks hl he with ⟨q, hq⟩ | hf
    · exact hready q hq
    · exact h.asked hf
  have hne : s.stream.driver ≠ .processStream := by
    obtain ⟨c, hc⟩ := hdriver
    rw [hc]
    simp
  have hnone : s.boruvka = none := by
    apply h.no_boruvka
    intro q hq
    rw [not_asks hq hl] at he
    cases he
  obtain ⟨hu, hthr, hv, hsh⟩ := asks_frame hl he
  have hexact := Eager.step_exact hload h.stream.eager h.exact he
  have hstream : Stream.Inv priority (updates s.history) { s.stream with eager := eager } :=
    h.stream.withEager (Eager.step_inv hrestores h.stream.eager he) hu hthr fun hsv => hsh.trans hsv
  refine ⟨?_, hexact, h.sampleIdx, fun _ => hdriver, fun q hq => ?_, fun x hx => ?_,
    fun hlocked _ => failed_mem_record (h.locked hlocked hnone) _,
    fun x hx hne => failed_mem_record (h.refused x hx hne) _, right_record h.right fun a ha => ?_⟩
  · rw [updates_record]
    exact hstream
  · obtain ⟨hf, hinvalid⟩ := invalid_of_boruvka hl h.stream.eager he hq
    obtain ⟨c, hc⟩ := hdriver
    refine ⟨?_, hv.trans hinvalid⟩
    cases c with
    | false => exact hc
    | true =>
      have hcached := h.stream.cached hc
      rw [h.stream.eager.flags_eq (h.stream.idle hne), hinvalid] at hcached
      cases hcached
  · rw [hnone] at hx
    cases hx
  · rw [ha, hu, h.stream.graph hT hne] at hexact
    exact hexact

omit hT in
/-- a step that a query does not see -/
theorem inv_of_free (hf : s'.stream.eager.query.free = true)
    (hstream : Stream.Inv priority (updates s'.history) s'.stream)
    (hexact : s'.stream.eager.query.Exact s'.stream.eager.parent (oddGraph s'.stream.eager.updates))
    (hidx : ∀ v, (s'.stream.sketches v).sampleIdx = 0) (hb : s'.boruvka = none)
    (hlocked : s'.updateLocked = true → .failed ∈ s'.history) (hrefused : ∀ x ∈ s'.refused, x.2 ≠ [] → .failed ∈ s'.history)
    (hright : Right Correct s'.history) : Inv priority s' := by
  refine ⟨hstream, hexact, hidx, fun hf' => ?_, fun q hq => absurd hq (free_ne_boruvka hf q), fun x hx => ?_,
    fun hl _ => hlocked hl, hrefused, hright⟩
  · rw [hf] at hf'
    cases hf'
  · rw [hb] at hx
    cases hx

omit hT in
/-- a thread of the driver makes a step -/
theorem streamStep_inv (h : Inv priority s) {l : Stream.Label n T} (hs : streamStep priority s l = some s') :
    Inv priority s' := by
  obtain ⟨stream, he, rfl⟩ := Option.map_eq_some_iff.1 hs
  have hstream := Stream.step_inv h.stream he
  have hidx := Stream.step_sampleIdx h.sampleIdx he
  obtain ⟨hexact, hfree⟩ := Stream.step_query h.stream.eager h.exact he
  have hrest : (∀ src dsts, l ≠ .batch src dsts) → Inv priority { s with stream := stream } := by
    intro hl
    have hf : s.stream.eager.query.free = true := by
      by_contra hf
      obtain ⟨c, hc⟩ := h.asked (by simpa using hf)
      obtain ⟨src, dsts, rfl⟩ := Stream.batch_of_ready h.stream hc he
      exact hl src dsts rfl
    have hnone := h.no_boruvka (free_ne_boruvka hf)
    exact inv_of_free (hfree.trans hf) hstream hexact hidx hnone (fun hl => h.locked hl hnone) h.refused h.right
  cases l with
  | getUpdateBuffer t k => exact hrest fun src dsts hl => by cases hl
  | reader t o => exact hrest fun src dsts hl => by cases hl
  | driver => exact hrest fun src dsts hl => by cases hl
  | batch src dsts =>
    simp only
    split_ifs with hlocked
    · refine ⟨h.stream, h.exact, h.sampleIdx, h.asked, h.flushed, h.boruvka, h.locked, fun x hx hne => ?_, h.right⟩
      cases hx
      apply h.locked hlocked
      by_contra hsome
      obtain ⟨x, hx⟩ := Option.ne_none_iff_exists'.1 hsome
      obtain ⟨⟨q, hq⟩, -⟩ := h.boruvka x hx
      simp only [Stream.step, h.stream.flushed (h.flushed q hq).1] at he
      split_ifs at he with hle
      exact hne (List.map_eq_nil_iff.1 ((Multiset.coe_eq_zero _).1 (Multiset.le_zero.1 hle)))
    · simp only [Stream.step] at he
      split_ifs at he
      cases he
      refine ⟨hstream, hexact, hidx, h.asked, h.flushed, fun x hx => ?_, h.locked, h.refused, h.right⟩
      exact absurd (h.boruvka x hx).2.1 hlocked

/-- `boruvka_emulation` is over -/
theorem finish_inv (hn : n < 2 ^ 32) (hB : 0 < B) (hBn : B ≤ n) (h : Inv priority s)
    {x : (Fin n → Fin B) × Emulation.St P n B} (hx : s.boruvka = some x) (hs : finish priority s x.2.phase = some s') :
    Inv priority s' := by
  obtain ⟨⟨q, hq⟩, -, ls, hrun, hload, hfalse⟩ := h.boruvka x hx
  obtain ⟨hready, hinvalid⟩ := h.flushed q hq
  have hne : s.stream.driver ≠ .processStream := by
    rw [hready]
    simp
  have hgraph := h.stream.graph hT hne
  have hb := fun v => h.buckets hT hq v
  have hinv := Emulation.run_inv hn hB hBn h.sampleIdx hrun
  unfold finish at hs
  split at hs
  next k w hphase =>
    obtain ⟨eager, he, rfl⟩ := Option.map_eq_some_iff.1 hs
    have hrestores : Restores priority s.stream.eager (.boruvka w.parent w.spanningForest) := by
      rw [Restores, hgraph]
      exact Emulation.restores_of_returned hn hB hBn h.sampleIdx hb hload hfalse hrun hphase
    have heager := Eager.step_inv hrestores h.stream.eager he
    simp only [Eager.step, hq, Option.some.injEq] at he
    subst he
    have hstream := (h.stream.withEager heager rfl rfl fun _ => rfl).withSketches (resetSampleStates w.sketches)
      (Emulation.buckets_of_ended hinv (.inl ⟨k, hphase⟩))
    exact ⟨hstream, trivial, fun v => rfl, fun _ => ⟨_, hready⟩, fun q hq => (by cases hq), fun x hx => (by cases hx),
      fun hl => (by cases hl), h.refused, h.right⟩
  next e w hphase =>
    cases hs
    obtain ⟨hord, hbelow⟩ := Emulation.tidy_of_threw hn hB hBn h.sampleIdx hb hload hfalse hrun hphase
    have heager := h.stream.eager.abandon (h.stream.idle hne) hinvalid hord hbelow
    have hstream := (h.stream.withEager heager rfl rfl id).withSketches (resetSampleStates w.sketches)
      (Emulation.buckets_of_ended hinv (.inr ⟨e, hphase⟩))
    exact inv_of_free rfl hstream trivial (fun v => rfl) rfl (fun _ => List.mem_cons_self)
      (fun _ _ _ => List.mem_cons_self) (h.right.cons fun a ha => by cases ha)
  next => cases hs
  next => cases hs

theorem step_inv (hn : n < 2 ^ 32) (hB : 0 < B) (hBn : B ≤ n) (h : Inv priority s) {l : Label n T B} (hl : FinalLoad s l)
    (hc : NoFalse s l) (hs : step priority s l = some s') : Inv priority s' := by
  unfold step at hs
  split_ifs at hs
  cases l with
  | processStreamUntil us =>
    simp only [act] at hs
    split_ifs at hs with hb
    cases hs
    have hnone := h.no_boruvka (free_ne_boruvka hb.2)
    have hstream := h.stream.processStream hT (not_processStream hb.1) us
    exact inv_of_free hb.2 hstream h.exact h.sampleIdx hnone (fun hl => List.mem_cons_of_mem _ (h.locked hl hnone))
      (fun x hx hne => List.mem_cons_of_mem _ (h.refused x hx hne)) (h.right.cons fun a ha => by cases ha)
  | prepQuery =>
    simp only [act] at hs
    split_ifs at hs with hb
    cases hs
    have hnone := h.no_boruvka (free_ne_boruvka hb.2)
    exact inv_of_free hb.2 (h.stream.prepQuery (not_processStream hb.1)) h.exact h.sampleIdx hnone
      (fun hl => h.locked hl hnone) h.refused h.right
  | stream l => exact streamStep_inv h hs
  | query q =>
    simp only [act] at hs
    split at hs
    next c hready => exact eagerStep_inv hT h (l := .query q) trivial (fun q' _ => ⟨c, hready⟩) trivial hs
    all_goals cases hs
  | querier o => exact eagerStep_inv hT h (l := .querier o) trivial (fun q hq => by cases hq) trivial hs
  | team t o => exact eagerStep_inv hT h (l := .team t o) trivial (fun q hq => by cases hq) hl hs
  | join => exact eagerStep_inv hT h (l := .join) trivial (fun q hq => by cases hq) trivial hs
  | boruvka owner =>
    simp only [act] at hs
    split at hs
    next q hq hnone =>
      cases hs
      refine ⟨h.stream, h.exact, h.sampleIdx, h.asked, h.flushed, fun x hx => ?_, fun _ hb => (by cases hb), h.refused, h.right⟩
      cases hx
      exact ⟨⟨q, hq⟩, rfl, ran_start priority _ _ owner⟩
    next => cases hs
  | emulate l =>
    simp only [act] at hs
    split at hs
    next owner e hx =>
      obtain ⟨e', he, rfl⟩ := Option.map_eq_some_iff.1 hs
      obtain ⟨hq, hlocked, hran⟩ := h.boruvka _ hx
      refine ⟨h.stream, h.exact, h.sampleIdx, h.asked, h.flushed, fun x hx' => ?_, fun _ hb => (by cases hb), h.refused,
        h.right⟩
      cases hx'
      exact ⟨hq, hlocked, hran.step (hl _ hx) (hc _ hx) he⟩
    next => cases hs
  | finish =>
    simp only [act] at hs
    split at hs
    next owner e hx => exact finish_inv hT hn hB hBn h hx hs
    next => cases hs

end steps

/-! ## Sessions -/

/-- how a session begins: with a new algorithm, or with one that is read from a file -/
inductive Begins (P : Params) (n T B : ℕ) : St P n T B → Prop
  | new : Begins P n T B (start P n T B)
  | read (sketches : Fin n → Sketch P) (us : List (Fin n × Fin n))
      (h : ∀ v, sketches v = ⟨0, graphSketch P (oddGraph us) v⟩) : Begins P n T B (startFrom T B sketches us)

theorem inv_startOf {eager : Eager.St n T} {sketches : Fin n → Sketch P} {us : List (Fin n × Fin n)}
    {history : List (Event (Fin n × Fin n) (Answer n))} (heager : Eager.Inv priority eager) (hq : eager.query = .idle)
    (hthr : ∀ t, eager.thr t = none) (hu : eager.updates = us) (hhistory : updates history = us)
    (hidx : ∀ v, (sketches v).sampleIdx = 0) (hb : ∀ v, (sketches v).buckets = graphSketch P (oddGraph us) v)
    (hright : Right Correct history) : Inv priority (startOf eager sketches history : St P n T B) := by
  refine inv_of_free (by simp only [startOf, hq]; rfl) ?_ (by simp only [startOf, hq]; trivial) hidx rfl (fun hl => by cases hl)
    (fun x hx => by cases hx) hright
  constructor
  case eager => exact heager
  case read => simp [startOf, hu, hhistory]
  case total =>
    intro v
    simp only [startOf, Stream.bufferSum_zero, Stream.ReaderPc.owed, Finset.sum_const_zero, add_zero, hu]
    rw [hb, pairSum_copies]
  case alone => exact fun t _ => hthr t
  case returned => exact fun t _ => ⟨rfl, rfl⟩
  case joined => exact fun _ t => rfl
  case cached => exact fun hr => by cases hr
  case flushed => exact fun hr => by cases hr

theorem inv_begins {s₀ : St P n T B} (h : Begins P n T B s₀) : Inv priority s₀ := by
  cases h with
  | new =>
    refine inv_startOf (Eager.inv_init priority) rfl (fun t => rfl) rfl rfl (fun v => rfl) (fun v => ?_) right_nil
    rw [Eager.init, ← pairSum_copies]
    rfl
  | read sketches us h =>
    refine inv_startOf ?_ rfl (fun t => rfl) rfl ?_ (fun v => by rw [h]) (fun v => by rw [h])
      (right_nil.cons fun a ha => by cases ha)
    · have h0 := Eager.inv_init (T := T) priority
      refine ⟨h0.ord, h0.calls, h0.oriented, ?_, fun hv => (by cases hv), ⟨fun hv => (by cases hv), fun hv => (by cases hv)⟩,
        h0.alone, fun hb => (by cases hb), h0.query⟩
      simp [Eager.init, owed]
    · exact List.append_nil us

/-- a file that is written behind a flush begins a session -/
theorem Inv.written (h : Inv priority s) (hT : 0 < T) (hr : s.stream.driver = .ready false) (T' B' : ℕ) :
    Begins P n T' B' (startFrom T' B' (fun v => ⟨0, (s.stream.sketches v).buckets⟩) (updates s.history)) := by
  refine .read _ _ fun v => ?_
  have hledger := (h.stream.ready hT hr).1 v
  rw [h.stream.flushed hr, Stream.bufferSum_zero, add_zero] at hledger
  rw [hledger]

/-- no other edges than these have been updated -/
def Within (us : List (Fin n × Fin n)) (s : St P n T B) : Prop := ∀ e ∈ updates s.history, e ∈ us

instance (us : List (Fin n × Fin n)) (s : St P n T B) : Decidable (Within us s) :=
  inferInstanceAs (Decidable (∀ e ∈ updates s.history, e ∈ us))

/-- it is enough that the hash gives no false checksum on the edges that are updated -/
theorem noFalse_of_within {us : List (Fin n × Fin n)} (h : Sketch.NoFalseChecksum P (Emulation.streamIds us))
    (hu : Within us s) (l : Label n T B) : NoFalse s l := by
  have hids : Emulation.streamIds (updates s.history) ⊆ Emulation.streamIds us := by
    intro x hx
    obtain ⟨e, he, rfl⟩ := List.mem_map.1 (List.mem_toFinset.1 hx)
    exact List.mem_toFinset.2 (List.mem_map.2 ⟨e, hu e he, rfl⟩)
  cases l with
  | emulate l => exact fun x _ => Emulation.noFalse_of_stream (fun A hA => h A (hA.trans hids)) x.2
  | processStreamUntil | prepQuery | stream | query | querier | team | join | boruvka | finish => trivial

open Threads Emulation in
/-- thread 0 inserts, deletes and inserts the edge; the copies are applied, and `prep_query` flushes -/
def pairIngest : List (Label 2 2 2) := List.flatten [
  [.processStreamUntil (List.replicate 3 (fst, snd)), .stream (.getUpdateBuffer fst 3)],
  List.replicate 42 (.stream (.reader fst .left)),
  [.stream (.getUpdateBuffer fst 0), .stream (.getUpdateBuffer snd 0), .stream .driver, .stream .driver,
    .stream (.batch fst [snd, snd]), .stream (.batch snd [fst, fst, fst]), .stream (.batch fst [snd]), .stream .driver]]

open Threads Emulation in
/-- `point_query` of the two vertices -/
def pairAsk : List (Label 2 2 2) := List.flatten [
  [.query (.pointQuery fst snd), .querier .left, .boruvka id], pairTeam.map .emulate, [.finish],
  List.replicate 9 (.querier .left)]

/-- the latest answer, of a `point_query` -/
def latest : List (Event (Fin n × Fin n) (Answer n)) → Option Bool
  | .answer (.connected _ _ answer) :: _ => some answer
  | _ => none

/-- `size()` of the latest answer, of `connected_components` -/
def latestSize : List (Event (Fin n × Fin n) (Answer n)) → Option ℕ
  | .answer (.components _ size) :: _ => some size
  | _ => none

end GraphStreamingCC.Session
