/-
A session with `GraphSketchDriver` and `CCSketchAlg` (include/graph_sketch_driver.h, src/cc_sketch_alg.cpp): any number of
calls of `process_stream_until`, `prep_query` and of the queries, as one thread of the user makes them one after another.

The parts are machines of their own. `Stream` has the stream threads and the workers, `Eager` the union-find and the
queries, `Emulation` the rounds of `boruvka_emulation`. Here they share one state: a query without a cached answer starts
`boruvka_emulation` on the vertex sketches, and what it leaves goes back into the union-find, or it throws. Workers go on
during all of this. `apply_update_batch` looks at `update_locked` when it begins; the flag changes only while no copy is
buffered or in the hands of a worker, so that it is the same when the batch is merged.

A query with an exception leaves `update_locked` set. If a batch meets it, the worker lets `UpdateLockedException` escape,
which ends the program. T is at least the number of stream threads and the size of the team that fills `parent_arr`; a
stream thread too many gets the breakpoint at once.
-/
import GraphStreamingCC.Boruvka.Connectivity
import GraphStreamingCC.Core.Service
import GraphStreamingCC.Driver.Stream

namespace GraphStreamingCC.Session

open Boruvka Dsu Eager Service

variable {P : Params} {n T B : ℕ}

structure St (P : Params) (n T B : ℕ) where
  stream : Stream.St P n T
  /-- `boruvka_emulation` while it runs, with the schedule of its round 0 -/
  boruvka : Option ((Fin n → Fin B) × Emulation.St P n B)
  updateLocked : Bool
  totalUpdates : ℕ
  /-- the batch at which an exception has escaped from a worker -/
  refused : Option (Fin n × List (Fin n))
  /-- what the user has seen, the latest first -/
  history : List (Event (Fin n × Fin n) (Answer n))

inductive Label (n T B : ℕ) where
  /-- `process_stream_until` is called, for these updates -/
  | processStreamUntil (updates : List (Fin n × Fin n))
  /-- `prep_query` is called -/
  | prepQuery
  /-- a step of a stream thread, of a worker or of the driver -/
  | stream (l : Stream.Label n T)
  | query (q : Query n T)
  | querier (o : Side)
  | team (t : Fin T) (o : Side)
  | join
  /-- `boruvka_emulation` is called -/
  | boruvka (owner : Fin n → Fin B)
  | emulate (l : Emulation.Label n B)
  /-- it is over: the query goes on or throws -/
  | finish

/-- no call of the driver is running -/
def between : Stream.DriverPc → Bool
  | .prepQuery | .ready _ => true
  | .processStream | .flush => false

/-- the user sees what a query returns -/
def record (history : List (Event (Fin n × Fin n) (Answer n))) : QueryPc n T → List (Event (Fin n × Fin n) (Answer n))
  | .answered a => .answer a :: history
  | _ => history

/-- the query goes on -/
def eagerStep (priority : Fin n → ℕ) (s : St P n T B) (l : Eager.Label n T) : Option (St P n T B) :=
  (Eager.step priority s.stream.eager l).map fun eager =>
    { s with stream := { s.stream with eager := eager }, history := record s.history eager.query }

/-- `batch_callback` counts a batch before it is refused or applied -/
def streamStep (priority : Fin n → ℕ) (s : St P n T B) (l : Stream.Label n T) : Option (St P n T B) :=
  (Stream.step priority s.stream l).map fun stream =>
    match l with
    | .batch src dsts =>
      if s.updateLocked then { s with totalUpdates := s.totalUpdates + dsts.length, refused := some (src, dsts) }
      else { s with stream := stream, totalUpdates := s.totalUpdates + dsts.length }
    | .getUpdateBuffer .. | .reader .. | .driver => { s with stream := stream }

/-- `sketches[i]->reset_sample_state()` for every vertex -/
def resetSampleStates (sketches : Fin n → Sketch P) : Fin n → Sketch P := fun v => (sketches v).resetSampleState

/-- behind `boruvka_emulation` -/
def finish (priority : Fin n → ℕ) (s : St P n T B) : Emulation.Phase P n B → Option (St P n T B)
  | .returned _ w =>
    (Eager.step priority s.stream.eager (.boruvka w.parent w.spanningForest)).map fun eager =>
      { s with
        stream := { s.stream with eager := eager, sketches := resetSampleStates w.sketches }
        boruvka := none
        updateLocked := false }
  | .threw _ w =>
    some
      { s with
        stream := { s.stream with
          eager := { s.stream.eager with parent := w.parent, spanningForest := w.spanningForest, query := .idle }
          sketches := resetSampleStates w.sketches }
        boruvka := none
        history := .failed :: s.history }
  | .round .. | .create .. => none

def act (priority : Fin n → ℕ) (s : St P n T B) : Label n T B → Option (St P n T B)
  | .processStreamUntil updates =>
    if between s.stream.driver ∧ s.stream.eager.query.free then
      some
        { s with
          stream := { s.stream with stream := updates, readers := fun _ => ⟨[], .next⟩, driver := .processStream }
          history := .updates updates :: s.history }
    else none
  | .prepQuery =>
    if between s.stream.driver ∧ s.stream.eager.query.free then
      some { s with stream := { s.stream with driver := .prepQuery } }
    else none
  | .stream l => streamStep priority s l
  | .query q =>
    match s.stream.driver with
    | .ready _ => eagerStep priority s (.query q)
    | .processStream | .prepQuery | .flush => none
  | .querier o => eagerStep priority s (.querier o)
  | .team t o => eagerStep priority s (.team t o)
  | .join => eagerStep priority s .join
  | .boruvka owner =>
    match s.stream.eager.query, s.boruvka with
    | .boruvka _, none =>
      some { s with boruvka := some (owner, Emulation.start owner s.stream.sketches), updateLocked := true }
    | _, _ => none
  | .emulate l =>
    match s.boruvka with
    | some (owner, e) => (Emulation.step owner priority e l).map fun e => { s with boruvka := some (owner, e) }
    | none => none
  | .finish =>
    match s.boruvka with
    | some (_, e) => finish priority s e.phase
    | none => none

def step (priority : Fin n → ℕ) (s : St P n T B) (l : Label n T B) : Option (St P n T B) :=
  if s.refused.isSome then none else act priority s l

/-- an algorithm and a driver, before the first call -/
def startOf (eager : Eager.St n T) (sketches : Fin n → Sketch P) (history : List (Event (Fin n × Fin n) (Answer n))) :
    St P n T B :=
  ⟨⟨eager, sketches, [], fun _ => ⟨[], .returned⟩, 0, .prepQuery⟩, none, false, 0, none, history⟩

/-- a new algorithm -/
def start (P : Params) (n T B : ℕ) : St P n T B := startOf (Eager.init n T) (fun _ => .empty P) []

/-- an algorithm read from a file, which holds what these updates have left -/
def startFrom (T B : ℕ) (sketches : Fin n → Sketch P) (updates : List (Fin n × Fin n)) : St P n T B :=
  startOf { Eager.init n T with dsuValid := false, sharedDsuValid := false, updates := updates, seen := updates } sketches
    [.updates updates]

end GraphStreamingCC.Session
