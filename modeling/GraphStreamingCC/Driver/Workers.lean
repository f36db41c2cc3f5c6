/-
The worker threads and the driver's pause protocol (include/worker_thread_group.h, `GraphSketchDriver::prep_query`), as
an interleaving of atomic steps.

One step is one access to a flag (`do_pause`, `paused`, `shutdown`), one call of the guttering system, or one operation
on the lock or the condition variable. The flags are written by the driver without the lock. The guttering system is
external: inserted data nodes may stay in its buffers (`buffered`) until they are spilled into the work queue,
`force_flush` moves all of them there, `get_data` removes any one queued node, blocks while the queue is empty and
`non_block` is false, and returns false only when it found the queue empty with `non_block` true. A waiting thread goes
on when it is notified; spurious wake-ups are steps of their own.

The driver may make any sequence of `process_stream_until` (resume_workers, then insertions) and `prep_query` calls, and
may be destroyed at the end. `inserted` and `applied` record the batches that were inserted and those whose callback has
completed.
-/
import Mathlib.Tactic
import GraphStreamingCC.Core.Runs

namespace GraphStreamingCC.Workers

/-- a batch of updates for one vertex -/
structure UpdateBatch where
  nodeIdx : ℕ
  updVec : List ℕ
deriving DecidableEq, Repr

/-- a data node of the work queue: the batches it holds -/
abbrev DataNode := List UpdateBatch

/-- where a worker is in `do_work` -/
inductive WPc where
  | getData
  | process (batches : List UpdateBatch)
  | dataCallback
  /-- `get_data` has returned false: about to read `shutdown`, then `do_pause` -/
  | testShutdown
  | testPause
  | lock
  | setPaused
  | notifyPaused
  /-- in `flush_condition.wait`, evaluating the predicate `!do_pause || shutdown` under the lock -/
  | predPause
  | predShutdown
  | waiting
  | relock
  | clearPaused
  | unlock
  | notifyUnpaused
  | exited
deriving DecidableEq, Repr

/-- where the driver is; `j` counts workers -/
inductive DPc where
  | idle
  | unpauseDo (j : ℕ)
  | unpausePaused (j : ℕ)
  | resumeNonBlock
  | resumeNotify
  | streaming
  | forceFlush
  | flushNonBlock
  | pause (j : ℕ)
  | flushLock
  | flushPred (j : ℕ)
  | flushWait
  | flushCheck (j : ℕ)
  | flushUnlock (allPaused : Bool)
  | destroyNonBlock
  | stop (j : ℕ)
  | destroyNotify
  | dead
deriving DecidableEq, Repr

/-- who holds `flush_lock` -/
inductive Holder (N : ℕ) where
  | free
  | driver
  | worker (i : Fin N)
deriving DecidableEq, Repr

structure St (N : ℕ) where
  queue : List DataNode
  buffered : List DataNode
  nonBlock : Bool
  flushLock : Holder N
  doPause : Fin N → Bool
  paused : Fin N → Bool
  shutdown : Fin N → Bool
  w : Fin N → WPc
  d : DPc
  inserted : List UpdateBatch
  applied : List UpdateBatch

inductive Label (N : ℕ) where
  /-- the user calls `process_stream_until`, `prep_query` (without a cached answer), or destroys the driver -/
  | processStreamUntil
  | prepQuery
  | destroy
  /-- a reader thread inserts; the gutters spill their oldest node; all reader threads are joined -/
  | insert (node : DataNode)
  | spill
  | endStream
  /-- the next step of the driver; `timeout`: `wait_for` returns although its predicate is false -/
  | driver (timeout : Bool)
  /-- the next step of worker i; `k` picks the queued node that `get_data` returns -/
  | worker (i : Fin N) (k : ℕ)
  /-- a spurious wake-up of worker i -/
  | wake (i : Fin N)
deriving DecidableEq, Repr

variable {N : ℕ}

/-- the batches of a data node that are passed on: `do_work` skips empty ones -/
def live (bs : List UpdateBatch) : List UpdateBatch := bs.filter fun b => b.updVec.length > 0

/-- `flush_condition.notify_all()` -/
def notifyAll (w : Fin N → WPc) : Fin N → WPc := fun j => if w j = .waiting then .relock else w j

/-- the next step of worker i in `do_work` -/
def workerStep (s : St N) (i : Fin N) (k : ℕ) : Option (St N) :=
  let goto pc := { s with w := Function.update s.w i pc }
  match s.w i with
  | .getData =>
    match s.queue[k]? with
    | some node => some { goto (.process node) with queue := s.queue.eraseIdx k }
    | none => if s.queue = [] ∧ s.nonBlock = true then some (goto .testShutdown) else none
  | .process [] => some (goto .dataCallback)
  | .process (b :: bs) =>
    if b.updVec.length > 0 then some { goto (.process bs) with applied := s.applied ++ [b] } else some (goto (.process bs))
  | .dataCallback => some (goto .getData)
  | .testShutdown => if s.shutdown i then some (goto .exited) else some (goto .testPause)
  | .testPause => if s.doPause i then some (goto .lock) else some (goto .getData)
  | .lock => if s.flushLock = .free then some { goto .setPaused with flushLock := .worker i } else none
  | .setPaused => some { goto .notifyPaused with paused := Function.update s.paused i true }
  | .notifyPaused => some { s with w := Function.update (notifyAll s.w) i .predPause }
  | .predPause => if s.doPause i then some (goto .predShutdown) else some (goto .clearPaused)
  | .predShutdown => if s.shutdown i then some (goto .clearPaused) else some { goto .waiting with flushLock := .free }
  | .waiting => none
  | .relock => if s.flushLock = .free then some { goto .predPause with flushLock := .worker i } else none
  | .clearPaused => some { goto .unlock with paused := Function.update s.paused i false }
  | .unlock => some { goto .notifyUnpaused with flushLock := .free }
  | .notifyUnpaused => some { s with w := Function.update (notifyAll s.w) i .getData }
  | .exited => none

/-- the next step of the driver in `resume_workers`, `prep_query` / `flush_workers`, or the destructor -/
def driverStep (s : St N) (timeout : Bool) : Option (St N) :=
  match s.d with
  | .idle => none
  | .unpauseDo j =>
    if h : j < N then some { s with doPause := Function.update s.doPause ⟨j, h⟩ false, d := .unpausePaused j }
    else some { s with d := .resumeNonBlock }
  | .unpausePaused j =>
    if h : j < N then some { s with paused := Function.update s.paused ⟨j, h⟩ false, d := .unpauseDo (j + 1) } else none
  | .resumeNonBlock => some { s with nonBlock := false, d := .resumeNotify }
  | .resumeNotify => some { s with w := notifyAll s.w, d := .streaming }
  | .streaming => none
  | .forceFlush => some { s with queue := s.queue ++ s.buffered, buffered := [], d := .flushNonBlock }
  | .flushNonBlock => some { s with nonBlock := true, d := .pause 0 }
  | .pause j =>
    if h : j < N then some { s with doPause := Function.update s.doPause ⟨j, h⟩ true, d := .pause (j + 1) }
    else some { s with d := .flushLock }
  | .flushLock => if s.flushLock = .free then some { s with flushLock := .driver, d := .flushPred 0 } else none
  | .flushPred j =>
    if h : j < N then
      if s.paused ⟨j, h⟩ then some { s with d := .flushPred (j + 1) }
      else if timeout then some { s with d := .flushCheck 0 } else some { s with flushLock := .free, d := .flushWait }
    else some { s with d := .flushCheck 0 }
  | .flushWait => if s.flushLock = .free then some { s with flushLock := .driver, d := .flushPred 0 } else none
  | .flushCheck j =>
    if h : j < N then
      if s.paused ⟨j, h⟩ then some { s with d := .flushCheck (j + 1) } else some { s with d := .flushUnlock false }
    else some { s with d := .flushUnlock true }
  | .flushUnlock allPaused => some { s with flushLock := .free, d := if allPaused then .idle else .flushLock }
  | .destroyNonBlock => some { s with nonBlock := true, d := .stop 0 }
  | .stop j =>
    if h : j < N then some { s with shutdown := Function.update s.shutdown ⟨j, h⟩ true, d := .stop (j + 1) }
    else some { s with d := .destroyNotify }
  | .destroyNotify => some { s with w := notifyAll s.w, d := .dead }
  | .dead => none

def step (s : St N) : Label N → Option (St N)
  | .processStreamUntil => if s.d = .idle then some { s with d := .unpauseDo 0 } else none
  | .prepQuery => if s.d = .idle then some { s with d := .forceFlush } else none
  | .destroy => if s.d = .idle then some { s with d := .destroyNonBlock } else none
  | .insert node =>
    if s.d = .streaming then
      some { s with buffered := s.buffered ++ [node], inserted := s.inserted ++ live node }
    else none
  | .spill =>
    match s.buffered with
    | [] => none
    | node :: rest => some { s with queue := s.queue ++ [node], buffered := rest }
  | .endStream => if s.d = .streaming then some { s with d := .idle } else none
  | .driver timeout => driverStep s timeout
  | .worker i k => workerStep s i k
  | .wake i => if s.w i = .waiting then some { s with w := Function.update s.w i .relock } else none

/-- the constructors: all workers are started and nothing is paused -/
def init (N : ℕ) : St N :=
  ⟨[], [], false, .free, fun _ => false, fun _ => false, fun _ => false, fun _ => .getData, .idle, [], []⟩

end GraphStreamingCC.Workers
