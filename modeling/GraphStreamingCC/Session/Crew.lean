/-
A session with its worker threads (include/graph_sketch_driver.h, include/worker_thread_group.h, src/cc_sketch_alg.cpp).

In `Session`, a batch of buffered copies is applied at any time and in one step, and `prep_query` waits until nothing is
buffered. Here the workers are those of `Workers`, with the flags, the lock and the condition variable by which the driver
stops and resumes them. The gutters make batches of the copies that the stream threads insert; the batches go through the
work queue to a worker, which executes `apply_update_batch` statement by statement, with its own delta sketch. `prep_query`
has flushed when `flush_workers` returns.

The guttering system is external. It may make a data node of copies that it holds at any time, with at least one copy in it,
although some of its batches may be empty; and `force_flush` returns when it holds no copy any more.
-/
import GraphStreamingCC.Driver.Gutters
import GraphStreamingCC.Ingest.Model
import GraphStreamingCC.Session.Model

namespace GraphStreamingCC.Crew

open Dsu Runs Workers

variable {P : Params} {n T B N : ℕ}

structure St (P : Params) (n T B N : ℕ) where
  /-- the session; its `buffered` are the copies in the gutters that are in no data node yet -/
  session : Session.St P n T B
  /-- the worker threads; its `buffered` are the data nodes that are not in the work queue yet -/
  workers : Workers.St N
  deltaSketches : Fin N → Sketch P
  /-- the call of `apply_update_batch` that a worker is in -/
  calls : Fin N → Option (Ingest.Call P n × Ingest.Pc P n)

inductive Label (n T B N : ℕ) where
  /-- a step of the user, of a stream thread, of a query, or of the driver outside of `flush_workers` and `resume_workers` -/
  | session (l : Session.Label n T B)
  /-- the gutters make a data node -/
  | form (batches : List (Fin n × List (Fin n)))
  /-- a data node comes into the work queue -/
  | spill
  /-- the next step of the driver in `force_flush`, `flush_workers` or `resume_workers` -/
  | driver (timeout : Bool)
  /-- the next step of worker i in `do_work`, outside of `batch_callback` -/
  | worker (i : Fin N) (k : ℕ)
  /-- a spurious wake-up -/
  | wake (i : Fin N)
  /-- worker i calls `batch_callback` -/
  | callback (i : Fin N) (src : Fin n) (dsts : List (Fin n))
  /-- its next statement in `apply_update_batch` -/
  | call (i : Fin N)

def toBatch (src : Fin n) (dsts : List (Fin n)) : UpdateBatch := ⟨src, dsts.map Fin.val⟩

def toNode (batches : List (Fin n × List (Fin n))) : DataNode := batches.map fun b => toBatch b.1 b.2

/-- the directed copies of a data node -/
def nodeCopies (batches : List (Fin n × List (Fin n))) : Multiset (Fin n × Fin n) :=
  (batches.map fun b => Stream.batchCopies b.1 b.2).sum

namespace St

/-- the gutters have made a data node -/
def form (c : St P n T B N) (batches : List (Fin n × List (Fin n))) : St P n T B N :=
  { c with
    session := { c.session with stream := { c.session.stream with
      buffered := c.session.stream.buffered - nodeCopies batches } }
    workers := { c.workers with
      buffered := c.workers.buffered ++ [toNode batches]
      inserted := c.workers.inserted ++ live (toNode batches) } }

/-- the driver has moved; `prep_query` returns when it has found all workers paused -/
def drive (c : St P n T B N) (w : Workers.St N) : St P n T B N :=
  { c with
    workers := w
    session := { c.session with stream := { c.session.stream with
      driver := if c.workers.d = .flushUnlock true then .ready false else c.session.stream.driver } } }

/-- worker i has counted the batch, and calls `apply_update_batch` -/
def enter (c : St P n T B N) (i : Fin N) (src : Fin n) (dsts : List (Fin n)) : St P n T B N :=
  let call := Ingest.Call.applyUpdateBatch src dsts
  { c with
    session := { c.session with totalUpdates := c.session.totalUpdates + dsts.length }
    calls := Function.update c.calls i (some (call, call.start)) }

/-- what `apply_update_batch` works on -/
def ingest (c : St P n T B N) : Ingest.St P n N :=
  ⟨c.session.stream.sketches, c.deltaSketches, c.session.updateLocked, fun i => ⟨[], c.calls i⟩, .idle, []⟩

/-- what it leaves -/
def after (c : St P n T B N) (g : Ingest.St P n N) : St P n T B N :=
  { c with
    session := { c.session with stream := { c.session.stream with sketches := g.sketches } }
    deltaSketches := g.deltaSketches
    calls := fun i => (g.workers i).cur }

end St

/-- the step of the driver that a step of the session comes with, if it is possible -/
def accompany (c : St P n T B N) : Session.Label n T B → Option (List (Workers.Label N))
  | .processStreamUntil _ => some [.processStreamUntil]
  -- the stream threads run when the workers have been resumed
  | .stream (.reader ..) | .stream (.getUpdateBuffer ..) => if c.workers.d = .streaming then some [] else none
  | .stream .driver =>
    match c.session.stream.driver with
    | .processStream => some [.endStream]
    | .prepQuery => some (if c.session.stream.eager.sharedDsuValid then [] else [.prepQuery])
    | .flush | .ready _ => none
  | .stream (.batch ..) => none
  | .prepQuery | .query _ | .querier _ | .team .. | .join | .boruvka _ | .emulate _ | .finish => some []

/-- worker i executes the next statement of its call; when the call returns, it goes on in `do_work` -/
def callStep (c : St P n T B N) (i : Fin N) (x : Ingest.Call P n × Ingest.Pc P n) : Option (St P n T B N) :=
  let g := Ingest.callStep c.ingest i x.1 x.2
  match g.ret with
  | [] => some (c.after g)
  | (_, .applyUpdateBatch src dsts, .updateLocked) :: _ =>
    some { c.after g with session := { (c.after g).session with refused := some (src, dsts) } }
  | (_, _, .updateLocked) :: _ => none
  | (_, _, .returned) :: _ => (Workers.step c.workers (.worker i 0)).map fun w => { c.after g with workers := w }

def act (priority : Fin n → ℕ) (c : St P n T B N) : Label n T B N → Option (St P n T B N)
  | .session l =>
    (accompany c l).bind fun ms => (Session.step priority c.session l).bind fun s =>
      (exec Workers.step c.workers ms).map fun w => { c with session := s, workers := w }
  | .form batches =>
    if nodeCopies batches ≠ 0 ∧ nodeCopies batches ≤ c.session.stream.buffered then some (c.form batches) else none
  | .spill => (Workers.step c.workers .spill).map fun w => { c with workers := w }
  | .driver timeout =>
    if c.workers.d = .forceFlush ∧ c.session.stream.buffered ≠ 0 then none
    else (Workers.step c.workers (.driver timeout)).map c.drive
  | .worker i k =>
    -- the callback has steps of its own
    if (c.workers.w i).passes then none else (Workers.step c.workers (.worker i k)).map fun w => { c with workers := w }
  | .wake i => (Workers.step c.workers (.wake i)).map fun w => { c with workers := w }
  | .callback i src dsts =>
    match c.workers.w i, c.calls i with
    | .process (b :: _), none =>
      if b = toBatch src dsts ∧ 0 < dsts.length then some (c.enter i src dsts) else none
    | _, _ => none
  | .call i => (c.calls i).bind (callStep c i)

/-- an exception that escapes from a worker ends the program -/
def step (priority : Fin n → ℕ) (c : St P n T B N) (l : Label n T B N) : Option (St P n T B N) :=
  if c.session.refused.isSome then none else act priority c l

/-- a driver with N workers for the algorithm of this session -/
def start (N : ℕ) (s : Session.St P n T B) : St P n T B N := ⟨s, Workers.init N, fun _ => .empty P, fun _ => none⟩

end GraphStreamingCC.Crew
