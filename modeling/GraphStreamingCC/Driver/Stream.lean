/-
`GraphSketchDriver` on a whole stream (include/graph_sketch_driver.h: `process_stream_until(END_OF_STREAM)`,
`prep_query`), over the eager union-find and the vertex sketches of one `CCSketchAlg`.

The stream threads take updates in arrays from the stream; for each update they call `pre_insert` and put the two
directed copies into the guttering system. Worker threads apply batches of buffered copies to the vertex sketches, at
any time and in any grouping. `prep_query` returns at once if a cached answer exists; otherwise it flushes, which ends
when nothing is buffered any more (`Flush` says what `flush_workers` itself does).

`Inv`: the updates begun, those in the arrays and those still in the stream are the stream; and at every vertex the
sketch, the buffered copies and the copies still to be inserted add up to the sketch of the updates begun.
-/
import GraphStreamingCC.Ingest.CachedQueries
import GraphStreamingCC.Ingest.Incidence

namespace GraphStreamingCC.Stream

open Dsu Ingest Parity Runs

/-! ## Model -/

/-- what a stream thread does -/
inductive ReaderPc (n : ℕ) where
  /-- about to look at the next update of its array -/
  | next
  | preInsert (e : Fin n × Fin n)
  /-- about to insert {src, dst} into the guttering system -/
  | insertSrc (e : Fin n × Fin n)
  /-- about to insert {dst, src} -/
  | insertDst (e : Fin n × Fin n)
  /-- it has seen the breakpoint -/
  | returned
deriving DecidableEq, Repr

structure Reader (n : ℕ) where
  updateArray : List (Fin n × Fin n)
  pc : ReaderPc n
deriving DecidableEq, Repr

/-- what the driver's thread does -/
inductive DriverPc where
  | processStream
  /-- about to test `has_cached_query(CONNECTIVITY)` -/
  | prepQuery
  | flush
  /-- `prep_query` has returned, with or without a cached answer -/
  | ready (cached : Bool)
deriving DecidableEq, Repr

structure St (P : Params) (n T : ℕ) where
  eager : Eager.St n T
  sketches : Fin n → Sketch P
  /-- the updates that no thread has taken yet -/
  stream : List (Fin n × Fin n)
  readers : Fin T → Reader n
  /-- the directed copies in the gutters, in the work queue or in the hands of a worker -/
  buffered : Multiset (Fin n × Fin n)
  driver : DriverPc

inductive Label (n T : ℕ) where
  /-- thread t gets the next k updates -/
  | getUpdateBuffer (t : Fin T) (k : ℕ)
  | reader (t : Fin T) (o : Side)
  /-- a worker passes a batch to `apply_update_batch` -/
  | batch (src : Fin n) (dsts : List (Fin n))
  | driver

variable {P : Params} {n T : ℕ} {priority : Fin n → ℕ} {s s' : St P n T}

def updateArraySize : ℕ := 4000

/-- a fresh algorithm and a driver for it -/
def start (P : Params) (T : ℕ) (stream : List (Fin n × Fin n)) : St P n T :=
  ⟨Eager.init n T, fun _ => .empty P, stream, fun _ => ⟨[], .next⟩, 0, .processStream⟩

/-- thread t goes on -/
def St.goto (s : St P n T) (t : Fin T) (pc : ReaderPc n) : St P n T :=
  { s with readers := Function.update s.readers t { s.readers t with pc := pc } }

def readerStep (priority : Fin n → ℕ) (s : St P n T) (t : Fin T) (o : Side) : Option (St P n T) :=
  match (s.readers t).pc with
  | .next =>
    match (s.readers t).updateArray with
    | [] => none
    | e :: rest =>
      (Eager.step priority s.eager (.preInsert t e)).map fun eager =>
        { s with eager := eager, readers := Function.update s.readers t ⟨rest, .preInsert e⟩ }
  | .preInsert e =>
    if s.eager.thr t = none then some (s.goto t (.insertSrc e))
    else (Eager.step priority s.eager (.thread t o)).map fun eager => { s with eager := eager }
  | .insertSrc e => some { s.goto t (.insertDst e) with buffered := (e.1, e.2) ::ₘ s.buffered }
  | .insertDst e => some { s.goto t .next with buffered := (e.2, e.1) ::ₘ s.buffered }
  | .returned => none

/-- the directed copies of a batch -/
def batchCopies (src : Fin n) (dsts : List (Fin n)) : Multiset (Fin n × Fin n) := ↑(dsts.map fun dst => (src, dst))

/-- `apply_update_batch`, run to its end: the delta sketch, zeroed at its begin, is merged -/
def applyUpdateBatch (sketches : Fin n → Sketch P) (src : Fin n) (dsts : List (Fin n)) : Fin n → Sketch P :=
  Function.update sketches src ((sketches src).merge ((dsts.map (edgeIdx src)).foldl Sketch.update (.empty P)))

def step (priority : Fin n → ℕ) (s : St P n T) : Label n T → Option (St P n T)
  | .getUpdateBuffer t k =>
    if (s.readers t).pc = .next ∧ (s.readers t).updateArray = [] then
      -- behind the last update, every call gets the breakpoint
      if s.stream = [] then some (s.goto t .returned)
      else if k ≤ updateArraySize then
        some { s with
               readers := Function.update s.readers t ⟨s.stream.take k, .next⟩
               stream := s.stream.drop k }
      else none
    else none
  | .reader t o => readerStep priority s t o
  | .batch src dsts =>
    if batchCopies src dsts ≤ s.buffered then
      some { s with
             sketches := applyUpdateBatch s.sketches src dsts
             buffered := s.buffered - batchCopies src dsts }
    else none
  | .driver =>
    match s.driver with
    | .processStream => if ∀ t, (s.readers t).pc = .returned then some { s with driver := .prepQuery } else none
    | .prepQuery => some { s with driver := if s.eager.sharedDsuValid then .ready true else .flush }
    | .flush => if s.buffered = 0 then some { s with driver := .ready false } else none
    | .ready _ => none

/-! ## What is kept -/

/-- what directed copies add to vertex v -/
def bufferSum (P : Params) (v : Fin n) (m : Multiset (Fin n × Fin n)) : Content P :=
  (m.map fun e => atVertex v e.1 (Sketch.contrib P (edgeIdx e.1 e.2))).sum

@[simp] theorem bufferSum_zero (v : Fin n) : bufferSum P v 0 = 0 := rfl

theorem bufferSum_coe (v : Fin n) (l : List (Fin n × Fin n)) : bufferSum P v ↑l = pairSum P v l := by
  rw [bufferSum, Multiset.map_coe, Multiset.sum_coe, pairSum]

@[simp] theorem bufferSum_add (v : Fin n) (m m' : Multiset (Fin n × Fin n)) :
    bufferSum P v (m + m') = bufferSum P v m + bufferSum P v m' := by
  rw [bufferSum, Multiset.map_add, Multiset.sum_add, ← bufferSum, ← bufferSum]

@[simp] theorem bufferSum_cons (v : Fin n) (e : Fin n × Fin n) (m : Multiset (Fin n × Fin n)) :
    bufferSum P v (e ::ₘ m) = bufferSum P v {e} + bufferSum P v m := by
  rw [← Multiset.singleton_add, bufferSum_add]

theorem applyUpdateBatch_buckets (sketches : Fin n → Sketch P) (src : Fin n) (dsts : List (Fin n)) (v : Fin n) :
    (applyUpdateBatch sketches src dsts v).buckets = (sketches v).buckets + bufferSum P v (batchCopies src dsts) := by
  have hbatch : bufferSum P v (batchCopies src dsts) = atVertex v src (batchSum P src dsts) := by
    rw [batchCopies, bufferSum_coe]
    unfold pairSum batchSum atVertex
    by_cases h : src = v <;> simp [h, Function.comp_def]
  rw [hbatch]
  refine update_buckets_at sketches src v ?_
  rw [Sketch.merge_buckets, Sketch.foldl_update_buckets, Sketch.empty_buckets, zero_add, batchSum, List.map_map]
  rfl

/-- the copies that a thread has still to insert for the update it is at -/
def ReaderPc.owed : ReaderPc n → Multiset (Fin n × Fin n)
  | .preInsert e | .insertSrc e => {(e.1, e.2)} + {(e.2, e.1)}
  | .insertDst e => {(e.2, e.1)}
  | .next | .returned => 0

/-- while a thread is in `pre_insert` -/
def ReaderPc.inserting : ReaderPc n → Bool
  | .preInsert _ => true
  | _ => false

structure Inv (priority : Fin n → ℕ) (stream : List (Fin n × Fin n)) (s : St P n T) : Prop where
  eager : Eager.Inv priority s.eager
  read : (s.eager.updates : Multiset (Fin n × Fin n)) + ∑ t, ((s.readers t).updateArray : Multiset (Fin n × Fin n)) +
    s.stream = stream
  total : ∀ v, (s.sketches v).buckets + bufferSum P v s.buffered + ∑ t, bufferSum P v (s.readers t).pc.owed =
    pairSum P v (copies s.eager.updates)
  alone : ∀ t, (s.readers t).pc.inserting = false → s.eager.thr t = none
  returned : ∀ t, (s.readers t).pc = .returned → (s.readers t).updateArray = [] ∧ s.stream = []
  joined : s.driver ≠ .processStream → ∀ t, (s.readers t).pc = .returned
  cached : s.driver = .ready true → s.eager.sharedDsuValid = true
  flushed : s.driver = .ready false → s.buffered = 0

variable {stream : List (Fin n × Fin n)}

theorem inv_start : Inv priority stream (start P T stream) where
  eager := Eager.inv_init priority
  read := by simp [start, Eager.init]
  total v := by simp [start, Eager.init, ReaderPc.owed, copies, pairSum]
  alone t _ := rfl
  returned t h := by simp [start] at h
  joined h := absurd rfl h
  cached h := by simp [start] at h
  flushed h := by simp [start] at h

/-- a call of `pre_insert` begins or goes on: the other threads stay where they are -/
theorem insertStep_thr {e e' : Eager.St n T} {t t' : Fin T} {o : Side} {c : Eager.PreInsert n}
    (hs : Eager.insertStep priority e t o c = some e') (ht : t' ≠ t) : e'.thr t' = e.thr t' := by
  unfold Eager.insertStep at hs
  split at hs <;> (try split at hs) <;> (try split at hs) <;> cases hs <;> exact Function.update_of_ne ht _ _

/-- thread t moves, and the copies it owes move with it -/
theorem Inv.move (h : Inv priority stream s) {t : Fin T} (hd : s.driver = .processStream) {x : Reader n}
    {eager : Eager.St n T} {buffered : Multiset (Fin n × Fin n)} {rest : List (Fin n × Fin n)}
    (heager : Eager.Inv priority eager)
    (hread : (eager.updates : Multiset (Fin n × Fin n)) + x.updateArray + rest =
      (s.eager.updates : Multiset (Fin n × Fin n)) + (s.readers t).updateArray + s.stream)
    (htotal : ∀ v, bufferSum P v buffered + bufferSum P v x.pc.owed + pairSum P v (copies s.eager.updates) =
      bufferSum P v s.buffered + bufferSum P v (s.readers t).pc.owed + pairSum P v (copies eager.updates))
    (hthr : ∀ t', t' ≠ t → eager.thr t' = s.eager.thr t') (halone : x.pc.inserting = false → eager.thr t = none)
    (hrest : s.stream = [] → rest = []) (hreturned : x.pc = .returned → x.updateArray = [] ∧ rest = []) :
    Inv priority stream
      { s with eager := eager, buffered := buffered, readers := Function.update s.readers t x, stream := rest } := by
  refine ⟨heager, ?_, fun v => ?_, fun t' ht' => ?_, fun t' ht' => ?_, fun hne => absurd hd hne,
    fun hr => (by rw [hd] at hr; cases hr), fun hr => (by rw [hd] at hr; cases hr)⟩
  · have hsum := Threads.sum_update (fun r : Reader n => (r.updateArray : Multiset (Fin n × Fin n))) s.readers t x
    have hold := h.read
    refine add_right_cancel (b := ((s.readers t).updateArray : Multiset (Fin n × Fin n))) ?_
    calc (eager.updates : Multiset (Fin n × Fin n)) +
          ∑ t', ((Function.update s.readers t x t').updateArray : Multiset (Fin n × Fin n)) + rest +
            (s.readers t).updateArray
        = eager.updates + (∑ t', ((Function.update s.readers t x t').updateArray : Multiset (Fin n × Fin n)) +
            (s.readers t).updateArray) + rest := by abel
      _ = (eager.updates + x.updateArray + rest) +
            ∑ t', ((s.readers t').updateArray : Multiset (Fin n × Fin n)) := by rw [hsum]; abel
      _ = stream + (s.readers t).updateArray := by rw [hread, ← hold]; abel
  · have hsum := Threads.sum_update (fun r : Reader n => bufferSum P v r.pc.owed) s.readers t x
    refine add_right_cancel (b := bufferSum P v (s.readers t).pc.owed + pairSum P v (copies s.eager.updates)) ?_
    calc (s.sketches v).buckets + bufferSum P v buffered + ∑ t', bufferSum P v (Function.update s.readers t x t').pc.owed +
          (bufferSum P v (s.readers t).pc.owed + pairSum P v (copies s.eager.updates))
        = (s.sketches v).buckets + bufferSum P v buffered + (∑ t', bufferSum P v (Function.update s.readers t x t').pc.owed +
          bufferSum P v (s.readers t).pc.owed) + pairSum P v (copies s.eager.updates) := by abel
      _ = (s.sketches v).buckets + ∑ t', bufferSum P v (s.readers t').pc.owed + (bufferSum P v buffered +
          bufferSum P v x.pc.owed + pairSum P v (copies s.eager.updates)) := by rw [hsum]; abel
      _ = ((s.sketches v).buckets + bufferSum P v s.buffered + ∑ t', bufferSum P v (s.readers t').pc.owed) +
          (bufferSum P v (s.readers t).pc.owed + pairSum P v (copies eager.updates)) := by rw [htotal]; abel
      _ = pairSum P v (copies eager.updates) +
          (bufferSum P v (s.readers t).pc.owed + pairSum P v (copies s.eager.updates)) := by rw [h.total]; abel
  · simp only at ht' ⊢
    by_cases ht : t' = t
    · subst ht
      rw [Function.update_self] at ht'
      exact halone ht'
    · rw [Function.update_of_ne ht] at ht'
      exact (hthr t' ht).trans (h.alone t' ht')
  · simp only at ht' ⊢
    by_cases ht : t' = t
    · subst ht
      rw [Function.update_self] at ht' ⊢
      exact hreturned ht'
    · rw [Function.update_of_ne ht] at ht' ⊢
      exact (h.returned t' ht').imp_right hrest

theorem readerStep_inv (h : Inv priority stream s) {t : Fin T} {o : Side} (hs : readerStep priority s t o = some s') :
    Inv priority stream s' := by
  have hrun : (s.readers t).pc ≠ .returned → s.driver = .processStream := by
    intro hne
    by_contra hd
    exact hne (h.joined hd t)
  cases hpc : (s.readers t).pc with
  | next =>
    have hd := hrun (by simp [hpc])
    cases harr : (s.readers t).updateArray with
    | nil => simp [readerStep, hpc, harr] at hs
    | cons e rest =>
      simp only [readerStep, hpc, harr, Option.map_eq_some_iff] at hs
      obtain ⟨eager, he, rfl⟩ := hs
      have hinv := Eager.step_inv (l := .preInsert t e) trivial h.eager he
      simp only [Eager.step] at he
      split_ifs at he with hfree
      cases he
      refine h.move hd hinv ?_ (fun v => ?_) (fun t' ht => Function.update_of_ne ht _ _) (fun hf => by cases hf)
        id fun hr => by cases hr
      · rw [harr, ← Multiset.cons_coe, ← Multiset.cons_coe, Multiset.cons_add, Multiset.add_cons]
      · have hcopies : pairSum P v (copies (e :: s.eager.updates)) =
            bufferSum P v ({(e.1, e.2)} + {(e.2, e.1)}) + pairSum P v (copies s.eager.updates) := by
          rw [copies, List.flatMap_cons, pairSum_append, ← copies, ← bufferSum_coe v [(e.1, e.2), (e.2, e.1)]]
          rfl
        rw [hpc, hcopies]
        simp only [ReaderPc.owed, bufferSum_zero]
        abel
  | preInsert e =>
    have hd := hrun (by simp [hpc])
    simp only [readerStep, hpc] at hs
    split_ifs at hs with hthr
    · cases hs
      refine h.move hd h.eager rfl (fun v => ?_) (fun t' _ => rfl) (fun _ => hthr) id fun hr => by cases hr
      simp only [hpc, ReaderPc.owed]
    · obtain ⟨eager, he, rfl⟩ := Option.map_eq_some_iff.1 hs
      have hinv := Eager.step_inv (l := .thread t o) trivial h.eager he
      simp only [Eager.step] at he
      split at he
      next hn => exact absurd hn hthr
      next c hc =>
        have hu := (Eager.insertStep_frame he).2
        have hmove : Inv priority stream
            { s with eager := eager, readers := Function.update s.readers t (s.readers t) } :=
          h.move hd hinv (by rw [hu]) (fun v => by rw [hu]) (fun t' ht => insertStep_thr he ht)
            (fun hf => by rw [hpc] at hf; cases hf) id fun hr => by rw [hpc] at hr; cases hr
        rwa [Function.update_eq_self] at hmove
  | insertSrc e =>
    have hd := hrun (by simp [hpc])
    simp only [readerStep, hpc, Option.some.injEq] at hs
    subst hs
    refine h.move hd h.eager rfl (fun v => ?_) (fun t' _ => rfl) (fun _ => h.alone t (by rw [hpc]; rfl))
      id fun hr => by cases hr
    simp only [hpc, ReaderPc.owed, bufferSum_cons, bufferSum_add]
    abel
  | insertDst e =>
    have hd := hrun (by simp [hpc])
    simp only [readerStep, hpc, Option.some.injEq] at hs
    subst hs
    refine h.move hd h.eager rfl (fun v => ?_) (fun t' _ => rfl) (fun _ => h.alone t (by rw [hpc]; rfl))
      id fun hr => by cases hr
    simp only [hpc, ReaderPc.owed, bufferSum_cons, bufferSum_zero]
    abel
  | returned => simp [readerStep, hpc] at hs

/-- a batch moves from the buffers into its sketch -/
theorem batch_inv (h : Inv priority stream s) {src : Fin n} {dsts : List (Fin n)}
    (hle : batchCopies src dsts ≤ s.buffered) : Inv priority stream
      { s with sketches := applyUpdateBatch s.sketches src dsts, buffered := s.buffered - batchCopies src dsts } := by
  refine ⟨h.eager, h.read, fun v => ?_, h.alone, h.returned, h.joined, h.cached, fun hr => ?_⟩
  · have hsplit : bufferSum P v s.buffered =
        bufferSum P v (s.buffered - batchCopies src dsts) + bufferSum P v (batchCopies src dsts) := by
      rw [← bufferSum_add, tsub_add_cancel_of_le hle]
    rw [← h.total, applyUpdateBatch_buckets, hsplit]
    abel
  · rw [h.flushed hr] at hle ⊢
    rw [Multiset.le_zero.1 hle]
    rfl

theorem step_inv {l : Label n T} (h : Inv priority stream s) (hs : step priority s l = some s') :
    Inv priority stream s' := by
  cases l with
  | getUpdateBuffer t k =>
    simp only [step] at hs
    split_ifs at hs with hnext hnil hk <;> cases hs
    all_goals
      have hd : s.driver = .processStream := by
        by_contra hd
        have := h.joined hd t
        rw [hnext.1] at this
        cases this
    · refine h.move hd h.eager rfl (fun v => ?_) (fun t' _ => rfl) (fun _ => h.alone t (by rw [hnext.1]; rfl)) id
        fun _ => ⟨hnext.2, hnil⟩
      simp only [hnext.1, ReaderPc.owed]
    · refine h.move hd h.eager ?_ (fun v => ?_) (fun t' _ => rfl) (fun _ => h.alone t (by rw [hnext.1]; rfl))
        (fun hn => absurd hn hnil) fun hr => by cases hr
      · rw [hnext.2, Multiset.coe_nil, add_zero, add_assoc, Multiset.coe_add, List.take_append_drop]
      · simp only [hnext.1, ReaderPc.owed]
  | reader t o => exact readerStep_inv h hs
  | batch src dsts =>
    simp only [step] at hs
    split_ifs at hs with hle
    cases hs
    exact batch_inv h hle
  | driver =>
    simp only [step] at hs
    split at hs
    next hd =>
      split_ifs at hs with hall
      cases hs
      exact ⟨h.eager, h.read, h.total, h.alone, h.returned, fun _ => hall, fun hr => (by cases hr), fun hr => (by cases hr)⟩
    next hd =>
      have hall := h.joined (by rw [hd]; simp)
      cases hs
      split_ifs with hsh
      · exact ⟨h.eager, h.read, h.total, h.alone, h.returned, fun _ => hall, fun _ => hsh, fun hr => (by cases hr)⟩
      · exact ⟨h.eager, h.read, h.total, h.alone, h.returned, fun _ => hall, fun hr => (by cases hr), fun hr => (by cases hr)⟩
    next hd =>
      have hall := h.joined (by rw [hd]; simp)
      split_ifs at hs with hz
      cases hs
      exact ⟨h.eager, h.read, h.total, h.alone, h.returned, fun _ => hall, fun hr => (by cases hr), fun _ => hz⟩
    next => cases hs

/-! ## When `prep_query` has returned -/

/-- **The ledger of a stream.** Sketch and buffer of a vertex together are its sketch in the graph of the whole stream; if
there is a cached answer, it is the components of this graph. -/
theorem Inv.ready (h : Inv priority stream s) (hT : 0 < T) {c : Bool} (hr : s.driver = .ready c) :
    (∀ v, (s.sketches v).buckets + bufferSum P v s.buffered = graphSketch P (oddGraph stream) v) ∧
      (c = true → ∀ u v, ParentForest.Same s.eager.parent u v ↔ (oddGraph stream).Reachable u v) := by
  have hret := h.joined (by rw [hr]; simp)
  have hperm : s.eager.updates.Perm stream := by
    have hread := h.read
    have harr : ∀ t, (s.readers t).updateArray = [] := fun t => (h.returned t (hret t)).1
    simp only [harr, (h.returned ⟨0, hT⟩ (hret _)).2, Multiset.coe_nil, Finset.sum_const_zero, add_zero,
      Multiset.coe_eq_coe] at hread
    exact hread
  have hgraph : oddGraph s.eager.updates = oddGraph stream := oddGraph_congr (hperm.map _)
  have halone : ∀ t, s.eager.thr t = none := fun t => h.alone t (by rw [hret t]; rfl)
  refine ⟨fun v => ?_, fun hc u v => ?_⟩
  · have htotal := h.total v
    simp only [hret, ReaderPc.owed, bufferSum_zero, Finset.sum_const_zero, add_zero] at htotal
    have hcopies : (copies s.eager.updates).Perm (copies stream) := hperm.flatMap_right _
    rw [htotal, pairSum_congr v hcopies, pairSum_copies]
  · have hv : s.eager.dsuValid = true := by
      rw [← h.eager.flags_eq halone]
      exact h.cached (by rw [hr, hc])
    rw [← hgraph]
    exact ((h.eager.forest halone hv).2 u v).symm

end GraphStreamingCC.Stream
