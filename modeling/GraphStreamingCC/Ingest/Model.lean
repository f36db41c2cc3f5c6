/-
The update entry points of `CCSketchAlg` (src/cc_sketch_alg.cpp: `apply_update_batch`, `apply_raw_buckets_update`,
`update`) beside a thread that runs queries, as an interleaving of statements.

One step of a worker is one statement: the test of `update_locked`, zeroing the delta sketch, one update of it, the
locked merge into the vertex sketch. Worker w passes `thr_id = w`, so its delta sketch is its own. One step of the query
thread is the assignment of `update_locked` at the begin or the end of `boruvka_emulation`, a Boruvka round, or the reset
of the sample state after it; an exception of a round skips the second assignment. A round changes vertex sketches only
by sampling them (round 0). Its outcome is left open here: `Boruvka` has the rounds themselves.
-/
import GraphStreamingCC.Core.Runs
import GraphStreamingCC.Sketch.Model

namespace GraphStreamingCC.Ingest

variable {P : Params} {n W : ℕ}

/-- the calls a worker can make -/
inductive Call (P : Params) (n : ℕ) where
  | applyUpdateBatch (src : Fin n) (dsts : List (Fin n))
  | applyRawBucketsUpdate (src : Fin n) (raw : Fin P.numBuckets → Bucket)
  | update (src dst : Fin n)

/-- how a call ends -/
inductive Outcome where
  | returned
  | updateLocked
deriving DecidableEq, Repr

/-- the text of `UpdateLockedException` -/
def Outcome.what : Outcome → String
  | .returned => ""
  | .updateLocked => "Cannot update the algorithm: Connected components currently running"

/-- the statement a call has reached -/
inductive Pc (P : Params) (n : ℕ) where
  /-- `if (update_locked) throw UpdateLockedException()` -/
  | test (src : Fin n) (dsts : List (Fin n))
  | zero (src : Fin n) (dsts : List (Fin n))
  /-- about to update the delta sketch with the rest, or, when none is left, to merge it -/
  | delta (src : Fin n) (rest : List (Fin n))
  | raw (src : Fin n) (raw : Fin P.numBuckets → Bucket)
  /-- `pre_insert` touches neither the sketches nor the lock flag -/
  | preInsert (src dst : Fin n)
  | updateSrc (src dst : Fin n)
  | updateDst (src dst : Fin n)

def Call.start : Call P n → Pc P n
  | .applyUpdateBatch src dsts => .test src dsts
  | .applyRawBucketsUpdate src raw => .raw src raw
  | .update src dst => .preInsert src dst

structure Worker (P : Params) (n : ℕ) where
  todo : List (Call P n)
  cur : Option (Call P n × Pc P n)

/-- where the query thread is -/
inductive QueryPc where
  | idle
  /-- in `boruvka_emulation`, before round r -/
  | round (r : ℕ)
  /-- behind the loop, about to clear `update_locked` -/
  | unlock
  /-- back in the query, about to reset the sample state of the vertex sketches -/
  | reset
deriving DecidableEq, Repr

/-- how a round ends: something was merged, nothing was, or a sketch was out of samples -/
inductive RoundEnd where
  | modified
  | unmodified
  | threw
deriving DecidableEq, Repr

structure St (P : Params) (n W : ℕ) where
  sketches : Fin n → Sketch P
  deltaSketches : Fin W → Sketch P
  updateLocked : Bool
  workers : Fin W → Worker P n
  query : QueryPc
  /-- the calls that have ended, the latest first -/
  ret : List (Fin W × Call P n × Outcome)

inductive Label (W : ℕ) where
  | worker (w : Fin W)
  /-- a query without a cached answer begins -/
  | query
  | round (e : RoundEnd)
  | unlock
  | reset
deriving DecidableEq, Repr

/-- a vertex sketch after `run_round_zero` has sampled it -/
def sampled (s : Sketch P) : Sketch P :=
  match s.sample with
  | .ok (s', _) => s'
  | .error _ => s

/-- `sketches[v]->update(concat_pairing_fn(edge.src, edge.dst))` -/
def updateAt (sketches : Fin n → Sketch P) (v src dst : Fin n) : Fin n → Sketch P :=
  Function.update sketches v ((sketches v).update (edgeIdx src dst))

/-- worker w goes to another statement of the call it is in -/
def St.goto (s : St P n W) (w : Fin W) (c : Call P n) (pc : Pc P n) : St P n W :=
  { s with workers := Function.update s.workers w ⟨(s.workers w).todo, some (c, pc)⟩ }

/-- the call of worker w ends -/
def St.finish (s : St P n W) (w : Fin W) (c : Call P n) (o : Outcome) : St P n W :=
  { s with workers := Function.update s.workers w ⟨(s.workers w).todo, none⟩, ret := (w, c, o) :: s.ret }

/-- worker w executes the next statement of the call it is in -/
def callStep (s : St P n W) (w : Fin W) (c : Call P n) : Pc P n → St P n W
  | .test src dsts => if s.updateLocked then s.finish w c .updateLocked else s.goto w c (.zero src dsts)
  | .zero src dsts =>
    { s.goto w c (.delta src dsts) with
      deltaSketches := Function.update s.deltaSketches w (s.deltaSketches w).zeroContents }
  | .delta src (dst :: rest) =>
    { s.goto w c (.delta src rest) with
      deltaSketches := Function.update s.deltaSketches w ((s.deltaSketches w).update (edgeIdx src dst)) }
  | .delta src [] =>
    { s.finish w c .returned with
      sketches := Function.update s.sketches src ((s.sketches src).merge (s.deltaSketches w)) }
  | .raw src raw =>
    { s.finish w c .returned with
      sketches := Function.update s.sketches src ((s.sketches src).mergeRawBucketBuffer raw) }
  | .preInsert src dst => s.goto w c (.updateSrc src dst)
  | .updateSrc src dst => { s.goto w c (.updateDst src dst) with sketches := updateAt s.sketches src src dst }
  | .updateDst src dst => { s.finish w c .returned with sketches := updateAt s.sketches dst src dst }

/-- worker w begins its next call, or goes on with the one it is in -/
def workerStep (s : St P n W) (w : Fin W) : Option (St P n W) :=
  match (s.workers w).cur, (s.workers w).todo with
  | some (c, pc), _ => some (callStep s w c pc)
  | none, c :: cs => some { s with workers := Function.update s.workers w ⟨cs, some (c, c.start)⟩ }
  | none, [] => none

def step (s : St P n W) : Label W → Option (St P n W)
  | .worker w => workerStep s w
  | .query => if s.query = .idle then some { s with updateLocked := true, query := .round 0 } else none
  | .round e =>
    match s.query with
    | .round r =>
      some { s with
             sketches := if r = 0 then fun v => sampled (s.sketches v) else s.sketches
             query :=
               match e with
               | .modified => .round (r + 1)
               | .unmodified => .unlock
               | .threw => .reset }
    | _ => none
  | .unlock => if s.query = .unlock then some { s with updateLocked := false, query := .reset } else none
  | .reset =>
    if s.query = .reset then some { s with sketches := fun v => (s.sketches v).resetSampleState, query := .idle }
    else none

/-- no call is running and no query is; `progs` are the calls of the workers -/
def start (sketches : Fin n → Sketch P) (deltaSketches : Fin W → Sketch P) (progs : Fin W → List (Call P n)) :
    St P n W :=
  ⟨sketches, deltaSketches, false, fun w => ⟨progs w, none⟩, .idle, []⟩

/-- every worker has made all its calls -/
def Done (s : St P n W) : Prop := ∀ w, (s.workers w).todo = [] ∧ (s.workers w).cur = none

/-- `update(upd)`, run to its end -/
def update (sketches : Fin n → Sketch P) (upd : Fin n × Fin n) : Fin n → Sketch P :=
  updateAt (updateAt sketches upd.1 upd.1 upd.2) upd.2 upd.1 upd.2

/-- the smallest parameters, with the identity as hash -/
def tiny : Params := ⟨fun x _ => x, 0, 1, 1, 1, false⟩

/-! ## What a step can be -/

variable {s s' : St P n W}

/-- no statement of a call touches the flag, the query thread, or another worker -/
theorem callStep_frame (s : St P n W) (w : Fin W) (c : Call P n) (pc : Pc P n) :
    (callStep s w c pc).updateLocked = s.updateLocked ∧
      ∀ w', w' ≠ w → (callStep s w c pc).workers w' = s.workers w' := by
  unfold callStep
  split <;> (try split_ifs) <;> exact ⟨rfl, fun w' hw => Function.update_of_ne hw _ _⟩

/-- what a step of worker w can be -/
theorem workerStep_cases {w : Fin W} (hs : workerStep s w = some s') :
    (∃ c cs, (s.workers w).cur = none ∧ (s.workers w).todo = c :: cs ∧
      s' = { s with workers := Function.update s.workers w ⟨cs, some (c, c.start)⟩ }) ∨
    ∃ c pc, (s.workers w).cur = some (c, pc) ∧ s' = callStep s w c pc := by
  cases hcur : (s.workers w).cur with
  | some x =>
    simp only [workerStep, hcur, Option.some.injEq] at hs
    exact .inr ⟨x.1, x.2, rfl, hs.symm⟩
  | none =>
    cases htodo : (s.workers w).todo with
    | nil => simp [workerStep, hcur, htodo] at hs
    | cons c cs =>
      simp only [workerStep, hcur, htodo, Option.some.injEq] at hs
      exact .inl ⟨c, cs, rfl, rfl, hs.symm⟩

end GraphStreamingCC.Ingest
