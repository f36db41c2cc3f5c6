/-
The batched update path equals the direct one.

What a call still owes to a vertex sketch is a sum of contributions (`Call.owes`, `Pc.owes`; a batch that is being
accumulated owes the content of its delta sketch, whatever that held before it was zeroed). A step of a worker only moves
a contribution from the owed side into the sketch (`callStep_total`), so the total is the same all along a run without
queries (`run_total`). When all calls have ended nothing is owed, and the total does not depend on how the directed copies
of the updates were split into batches or on their order (`batches_owe`): it is what `update`, called once per update in
stream order, adds (`foldl_update_total`). Hence `batched_eq_direct`.
-/
import Mathlib.Algebra.BigOperators.Pi
import GraphStreamingCC.Core.Threads
import GraphStreamingCC.Sketch.Linear
import GraphStreamingCC.Ingest.Model

namespace GraphStreamingCC.Ingest

open Runs

variable {P : Params} {n W : ℕ} {s s' : St P n W}

/-! ## What is owed -/

/-- what is meant for vertex `src`, seen from vertex v -/
def atVertex (v src : Fin n) (c : Content P) : Content P := if src = v then c else 0

/-- the directed copies (src, dst) of a batch -/
def batchSum (P : Params) (src : Fin n) (dsts : List (Fin n)) : Content P :=
  (dsts.map fun dst => Sketch.contrib P (edgeIdx src dst)).sum

/-- what a call that has not begun owes to vertex v -/
def Call.owes (v : Fin n) : Call P n → Content P
  | .applyUpdateBatch src dsts => atVertex v src (batchSum P src dsts)
  | .applyRawBucketsUpdate src raw => atVertex v src raw
  | .update src dst =>
    atVertex v src (Sketch.contrib P (edgeIdx src dst)) + atVertex v dst (Sketch.contrib P (edgeIdx src dst))

/-- what a call in progress owes to vertex v; `delta` is the delta sketch of its worker -/
def Pc.owes (v : Fin n) (delta : Sketch P) : Pc P n → Content P
  | .test src dsts | .zero src dsts => atVertex v src (batchSum P src dsts)
  | .delta src rest => atVertex v src (delta.buckets + batchSum P src rest)
  | .raw src buf => atVertex v src buf
  | .preInsert src dst | .updateSrc src dst =>
    atVertex v src (Sketch.contrib P (edgeIdx src dst)) + atVertex v dst (Sketch.contrib P (edgeIdx src dst))
  | .updateDst src dst => atVertex v dst (Sketch.contrib P (edgeIdx src dst))

/-- what worker w owes to vertex v -/
def owes (s : St P n W) (v : Fin n) (w : Fin W) : Content P :=
  ((s.workers w).cur.elim 0 fun x => x.2.owes v (s.deltaSketches w)) + ((s.workers w).todo.map (Call.owes v)).sum

/-- what vertex v has and is still to get -/
def total (s : St P n W) (v : Fin n) : Content P := (s.sketches v).buckets + ∑ w, owes s v w

theorem Call.owes_start (v : Fin n) (delta : Sketch P) (c : Call P n) : c.start.owes v delta = c.owes v := by
  cases c <;> simp only [Call.start, Pc.owes, Call.owes]

/-! ## One step -/

@[simp] theorem batchSum_cons (src dst : Fin n) (dsts : List (Fin n)) :
    batchSum P src (dst :: dsts) = Sketch.contrib P (edgeIdx src dst) + batchSum P src dsts := by
  simp [batchSum]

@[simp] theorem batchSum_nil (src : Fin n) : batchSum P src [] = 0 := rfl

/-- an addition to one vertex sketch, seen from vertex v -/
theorem update_buckets_at (sketches : Fin n → Sketch P) (src v : Fin n) {x : Sketch P} {c : Content P}
    (hx : x.buckets = (sketches src).buckets + c) :
    (Function.update sketches src x v).buckets = (sketches v).buckets + atVertex v src c := by
  unfold atVertex
  by_cases h : v = src
  · subst h; simp [hx]
  · simp [Function.update_of_ne h, Ne.symm h]

/-- what the other workers owe stays -/
theorem owes_congr {v : Fin n} {w' : Fin W} (hworker : s'.workers w' = s.workers w')
    (hdelta : s'.deltaSketches w' = s.deltaSketches w') : owes s' v w' = owes s v w' := by
  simp only [owes, hworker, hdelta]

theorem total_eq {v : Fin n} {w : Fin W}
    (hother : ∀ w', w' ≠ w → s'.workers w' = s.workers w' ∧ s'.deltaSketches w' = s.deltaSketches w')
    (h : (s'.sketches v).buckets + owes s' v w = (s.sketches v).buckets + owes s v w) : total s' v = total s v := by
  have hsum := Threads.sum_move (f := owes s v) (g := owes s' v) (i := w) fun w' hw =>
    owes_congr (hother w' hw).1 (hother w' hw).2
  refine add_right_cancel (b := owes s v w) ?_
  calc total s' v + owes s v w = (s'.sketches v).buckets + (∑ w', owes s' v w' + owes s v w) := add_assoc _ _ _
    _ = (s'.sketches v).buckets + owes s' v w + ∑ w', owes s v w' := by rw [hsum]; abel
    _ = total s v + owes s v w := by rw [h, total]; abel

/-- **One statement.** What it adds to a vertex sketch is what its worker owes less. -/
theorem callStep_total (hl : s.updateLocked = false) (v : Fin n) {w : Fin W} {c : Call P n} {pc : Pc P n}
    (hcur : (s.workers w).cur = some (c, pc)) : total (callStep s w c pc) v = total s v := by
  refine total_eq (w := w) (fun w' hw => ?_) ?_
  · unfold callStep
    split <;> (try split_ifs) <;> exact ⟨Function.update_of_ne hw _ _, by first | rfl | exact Function.update_of_ne hw _ _⟩
  · have hw : owes s v w = pc.owes v (s.deltaSketches w) + ((s.workers w).todo.map (Call.owes v)).sum := by
      simp [owes, hcur]
    rw [hw]
    cases pc with
    | test src dsts => simp [callStep, hl, St.goto, owes, Pc.owes]
    | zero src dsts => simp [callStep, St.goto, owes, Pc.owes]
    | delta src rest =>
      cases rest with
      | nil =>
        simp only [callStep]
        rw [update_buckets_at s.sketches src v (Sketch.merge_buckets _ _)]
        simp [St.finish, owes, Pc.owes, add_assoc]
      | cons dst rest => simp [callStep, St.goto, owes, Pc.owes, Sketch.update_buckets, add_assoc]
    | raw src buf =>
      simp only [callStep]
      rw [update_buckets_at s.sketches src v (Sketch.mergeRawBucketBuffer_buckets _ _)]
      simp [St.finish, owes, Pc.owes, add_assoc]
    | preInsert src dst => simp [callStep, St.goto, owes, Pc.owes]
    | updateSrc src dst =>
      simp only [callStep, updateAt]
      rw [update_buckets_at s.sketches src v (Sketch.update_buckets _ _)]
      simp [St.goto, owes, Pc.owes, add_assoc]
    | updateDst src dst =>
      simp only [callStep, updateAt]
      rw [update_buckets_at s.sketches dst v (Sketch.update_buckets _ _)]
      simp [St.finish, owes, Pc.owes, add_assoc]

theorem workerStep_total {w : Fin W} (hl : s.updateLocked = false) (hs : workerStep s w = some s') (v : Fin n) :
    total s' v = total s v := by
  rcases workerStep_cases hs with ⟨c, cs, hcur, htodo, rfl⟩ | ⟨c, pc, hcur, rfl⟩
  · refine total_eq (w := w) (fun w' hw => ⟨Function.update_of_ne hw _ _, rfl⟩) ?_
    simp [owes, hcur, htodo, Call.owes_start]
  · exact callStep_total hl v hcur

/-! ## Runs -/

/-- without a query, a run changes no total -/
theorem run_total {ls : List (Label W)} (hq : ∀ l ∈ ls, ∃ w, l = .worker w) (hl : s.updateLocked = false)
    (hs : exec step s ls = some s') (v : Fin n) : total s' v = total s v := by
  induction ls generalizing s with
  | nil => cases hs; rfl
  | cons l ls ih =>
    obtain ⟨t, hst, ht⟩ := exec_cons_some step hs
    obtain ⟨w, rfl⟩ := hq l List.mem_cons_self
    have hlt : t.updateLocked = false := by
      rcases workerStep_cases hst with ⟨c, cs, -, -, rfl⟩ | ⟨c, pc, -, rfl⟩
      · exact hl
      · exact (callStep_frame s w c pc).1.trans hl
    rw [ih (fun l hm => hq l (List.mem_cons_of_mem _ hm)) hlt ht, workerStep_total hl hst]

theorem total_done (hd : Done s) (v : Fin n) : total s v = (s.sketches v).buckets := by
  have h0 : ∀ w, owes s v w = 0 := fun w => by simp [owes, hd w]
  simp [total, h0]

/-! ## Batches -/

/-- a batch of destinations for one source, applied by `apply_update_batch`, or computed elsewhere into a zeroed sketch
with the same seed and applied by `apply_raw_buckets_update` -/
structure Batch (n : ℕ) where
  src : Fin n
  dsts : List (Fin n)
  raw : Bool

def Batch.call (P : Params) (b : Batch n) : Call P n :=
  if b.raw then .applyRawBucketsUpdate b.src ((b.dsts.map (edgeIdx b.src)).foldl Sketch.update (.empty P)).buckets
  else .applyUpdateBatch b.src b.dsts

/-- the directed copies that a batch holds -/
def Batch.pairs (b : Batch n) : List (Fin n × Fin n) := b.dsts.map fun dst => (b.src, dst)

/-- the directed copies that all batches of all workers hold -/
def allPairs (batches : Fin W → List (Batch n)) : List (Fin n × Fin n) :=
  (List.finRange W).flatMap fun w => (batches w).flatMap Batch.pairs

/-- both directed copies of each update -/
def copies (stream : List (Fin n × Fin n)) : List (Fin n × Fin n) := stream.flatMap fun e => [(e.1, e.2), (e.2, e.1)]

/-- what directed copies add to vertex v -/
def pairSum (P : Params) (v : Fin n) (pairs : List (Fin n × Fin n)) : Content P :=
  (pairs.map fun e => atVertex v e.1 (Sketch.contrib P (edgeIdx e.1 e.2))).sum

theorem Batch.owes_call (v : Fin n) (b : Batch n) : (b.call P).owes v = pairSum P v b.pairs := by
  have hsum : pairSum P v b.pairs = atVertex v b.src (batchSum P b.src b.dsts) := by
    unfold pairSum Batch.pairs batchSum atVertex
    by_cases h : b.src = v <;> simp [h, Function.comp_def]
  rw [hsum]
  unfold Batch.call
  split_ifs
  · simp [Call.owes, Sketch.foldl_update_buckets, batchSum, Function.comp_def]
  · rfl

theorem pairSum_flatMap {α : Type*} (v : Fin n) (l : List α) (f : α → List (Fin n × Fin n)) :
    pairSum P v (l.flatMap f) = (l.map fun a => pairSum P v (f a)).sum := by
  induction l with
  | nil => rfl
  | cons a l ih => simp only [pairSum, List.flatMap_cons, List.map_append, List.sum_append, List.map_cons,
      List.sum_cons] at ih ⊢; rw [ih]

/-- at the start, exactly the batches are owed -/
theorem batches_owe (sketches : Fin n → Sketch P) (deltaSketches : Fin W → Sketch P) (batches : Fin W → List (Batch n))
    (v : Fin n) : total (start sketches deltaSketches fun w => (batches w).map (Batch.call P)) v =
      (sketches v).buckets + pairSum P v (allPairs batches) := by
  have hw : ∀ w, owes (start sketches deltaSketches fun w => (batches w).map (Batch.call P)) v w =
      pairSum P v ((batches w).flatMap Batch.pairs) := by
    intro w
    simp [owes, start, pairSum_flatMap, Function.comp_def, Batch.owes_call]
  rw [total, allPairs, pairSum_flatMap, ← Fin.sum_univ_def]
  simp only [hw]
  rfl

/-- one call of `update` adds both directed copies -/
theorem update_total (sketches : Fin n → Sketch P) (e : Fin n × Fin n) (v : Fin n) :
    (update sketches e v).buckets = (sketches v).buckets + pairSum P v [(e.1, e.2), (e.2, e.1)] := by
  unfold update updateAt
  rw [update_buckets_at _ e.2 v (Sketch.update_buckets _ _), update_buckets_at _ e.1 v (Sketch.update_buckets _ _)]
  simp [pairSum, edgeIdx_comm e.2 e.1, add_assoc]

theorem foldl_update_total (stream : List (Fin n × Fin n)) (sketches : Fin n → Sketch P) (v : Fin n) :
    (stream.foldl update sketches v).buckets = (sketches v).buckets + pairSum P v (copies stream) := by
  induction stream generalizing sketches with
  | nil => simp [copies, pairSum]
  | cons e stream ih =>
    rw [List.foldl_cons, ih, update_total, add_assoc, copies, copies, pairSum_flatMap, pairSum_flatMap, List.map_cons,
      List.sum_cons]

/-- **The batched path equals the direct path.** Split the directed copies of a stream of updates into batches in any way
and give them to any workers, as batches for the delta sketches or as raw buckets; in every interleaving without a query
in which all calls end, each vertex sketch has the buckets that calling `update` once per update in stream order gives,
whatever the delta sketches held before. -/
theorem batched_eq_direct (stream : List (Fin n × Fin n)) (batches : Fin W → List (Batch n))
    (hsplit : (allPairs batches).Perm (copies stream)) (sketches : Fin n → Sketch P) (deltaSketches : Fin W → Sketch P)
    {ls : List (Label W)} (hq : ∀ l ∈ ls, ∃ w, l = .worker w)
    (hs : exec step (start sketches deltaSketches fun w => (batches w).map (Batch.call P)) ls = some s) (hd : Done s)
    (v : Fin n) : (s.sketches v).buckets = (stream.foldl update sketches v).buckets := by
  calc (s.sketches v).buckets = total s v := (total_done hd v).symm
    _ = total (start sketches deltaSketches fun w => (batches w).map (Batch.call P)) v := run_total hq rfl hs v
    _ = (sketches v).buckets + pairSum P v (allPairs batches) := batches_owe _ _ _ _
    _ = (sketches v).buckets + pairSum P v (copies stream) := by rw [pairSum, (hsplit.map _).sum_eq]; rfl
    _ = (stream.foldl update sketches v).buckets := (foldl_update_total _ _ _).symm

open Threads in
/-- one edge: worker 0 has its copy as a batch, worker 1 the other copy as raw buckets -/
def oneEdge : Fin 2 → List (Batch 2) := ![[⟨fst, [snd], false⟩], [⟨snd, [fst], true⟩]]

/-- the delta sketches hold leftovers -/
def oneEdgeStart : St tiny 2 2 :=
  start (fun _ => .empty tiny) (fun _ => ⟨0, fun _ => ⟨7, 7⟩⟩) fun w => (oneEdge w).map (Batch.call tiny)

open Threads in
def oneEdgeRun : List (Label 2) :=
  [.worker fst, .worker fst, .worker snd, .worker fst, .worker snd, .worker fst, .worker fst]

theorem batched_eq_direct_oneEdge :
    ∃ s, exec step oneEdgeStart oneEdgeRun = some s ∧ Done s ∧
      ∀ v, (s.sketches v).buckets = ([(0, 1)].foldl update (fun _ => .empty tiny) v).buckets := by
  have hq : ∀ l ∈ oneEdgeRun, ∃ w : Fin 2, l = .worker w := by simp [oneEdgeRun]
  have hd : Done ((exec step oneEdgeStart oneEdgeRun).get rfl) := by
    intro w
    fin_cases w <;> exact ⟨rfl, rfl⟩
  exact ⟨_, rfl, hd, batched_eq_direct [(0, 1)] oneEdge (by decide) _ _ hq rfl hd⟩

end GraphStreamingCC.Ingest
