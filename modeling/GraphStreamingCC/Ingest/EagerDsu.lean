/-
The eager union-find (src/cc_sketch_alg.cpp: `pre_insert`) and the queries that use it as a cache (`connected_components`,
`calc_spanning_forest`, `point_query`, the constructor of `ConnectedComponents`), as an interleaving of atomic steps.

An update runs `dsu.merge` at the granularity of its atomic operations inside the critical section of its smaller end
point. The constructor of `ConnectedComponents` is an OpenMP loop: each thread of the team calls `find_root` for the
vertices it owns, again one atomic operation a step. Ingestion phases and queries alternate: a query begins when no update
is running, and an update when no query is. A query without a cached answer runs `boruvka_emulation`, which is one step
here; what it leaves in the DSU and the forest is the label's choice, and results assume it correct.
-/
import Mathlib.Data.Finset.Basic
import GraphStreamingCC.Core.Runs
import GraphStreamingCC.Core.ParentForest
import GraphStreamingCC.Dsu.Model

namespace GraphStreamingCC.Eager

open Dsu

/-- the statement an update has reached in `pre_insert` -/
inductive InsertPc (n : ℕ) where
  /-- `if (dsu_valid)` -/
  | testValid
  /-- about to lock `spanning_forest_mtx[src]` -/
  | lock
  | merge (m : MergePc n)
  /-- the merge returned true -/
  | insert
  /-- the merge returned false: about to look for the edge in the forest -/
  | find
  | clearValid
  | clearShared
  | unlock
deriving DecidableEq, Repr

/-- a call of `pre_insert`: `src` and `dst` are the smaller and the larger end point of the edge -/
structure PreInsert (n : ℕ) where
  src : Fin n
  dst : Fin n
  pc : InsertPc n
deriving DecidableEq, Repr

/-- a thread of the team that fills `parent_arr`: the vertices still to do, and the `find_root` it is in -/
structure TeamThread (n : ℕ) where
  todo : List (Fin n)
  cur : Option (Fin n × FindPc n)
deriving DecidableEq, Repr

/-- what a query returns -/
inductive Answer (n : ℕ) where
  /-- `parent_arr` and `num_cc` -/
  | components (parentArr : Fin n → Fin n) (size : ℕ)
  | spanningForest (forest : Fin n → Finset (Fin n))
  | connected (a b : Fin n) (answer : Bool)

/-- a query, with its arguments; `owner` is the schedule of the OpenMP loop -/
inductive Query (n T : ℕ) where
  | connectedComponents (owner : Fin n → Fin T)
  | calcSpanningForest (owner : Fin n → Fin T)
  | pointQuery (a b : Fin n)

/-- where the query is -/
inductive QueryPc (n T : ℕ) where
  | idle
  /-- about to test `shared_dsu_valid` (`dsu_valid` in `point_query`) -/
  | testValid (q : Query n T)
  | boruvka (q : Query n T)
  /-- the DSU holds the answer -/
  | ready (q : Query n T)
  | team (q : Query n T) (thr : Fin T → TeamThread n) (parentArr : Fin n → Fin n)
  /-- `dsu.find_root(a) == dsu.find_root(b)`: in the first operand, or in the second one, with the result of the first -/
  | first (o : Side) (a b : Fin n) (f : FindPc n)
  | second (o : Side) (a b r : Fin n) (f : FindPc n)
  | answered (a : Answer n)

structure St (n T : ℕ) where
  parent : Fin n → Fin n
  spanningForest : Fin n → Finset (Fin n)
  /-- who holds `spanning_forest_mtx[v]` -/
  mtx : Fin n → Option (Fin T)
  dsuValid : Bool
  sharedDsuValid : Bool
  thr : Fin T → Option (PreInsert n)
  query : QueryPc n T
  /-- the edges of the updates that have begun, the latest first -/
  updates : List (Fin n × Fin n)
  /-- those of them that `pre_insert` has taken account of -/
  seen : List (Fin n × Fin n)

inductive Label (n T : ℕ) where
  /-- thread t calls `pre_insert` -/
  | preInsert (t : Fin T) (upd : Fin n × Fin n)
  | thread (t : Fin T) (o : Side)
  | query (q : Query n T)
  /-- the next step of the querying thread -/
  | querier (o : Side)
  | boruvka (parent : Fin n → Fin n) (spanningForest : Fin n → Finset (Fin n))
  /-- the next step of thread t in the team -/
  | team (t : Fin T) (o : Side)
  /-- the team has finished -/
  | join

variable {n T : ℕ}

/-- the constructor -/
def init (n T : ℕ) : St n T :=
  ⟨id, fun _ => ∅, fun _ => none, true, true, fun _ => none, .idle, [], []⟩

/-- no query is running -/
def QueryPc.free : QueryPc n T → Bool
  | .idle | .answered _ => true
  | _ => false

/-- the OpenMP loop begins: each thread gets the vertices it owns -/
def QueryPc.loop (q : Query n T) (owner : Fin n → Fin T) : QueryPc n T :=
  .team q (fun t => ⟨(List.finRange n).filter fun v => owner v = t, none⟩) id

/-- thread t goes on with its call -/
def St.goto (s : St n T) (t : Fin T) (c : PreInsert n) (pc : InsertPc n) : St n T :=
  { s with thr := Function.update s.thr t (some { c with pc := pc }) }

/-- the next step of the call c of thread t -/
def insertStep (priority : Fin n → ℕ) (s : St n T) (t : Fin T) (o : Side) (c : PreInsert n) : Option (St n T) :=
  match c.pc with
  | .testValid =>
    if s.dsuValid then some (s.goto t c .lock)
    else some { s with thr := Function.update s.thr t none, seen := (c.src, c.dst) :: s.seen }
  | .lock =>
    if s.mtx c.src = none then
      some { s.goto t c (.merge (.loop c.src c.dst)) with mtx := Function.update s.mtx c.src (some t) }
    else none
  | .merge m =>
    match m.step priority s.parent o with
    | (parent', .inl m') => some { s.goto t c (.merge m') with parent := parent' }
    | (parent', .inr r) =>
      if r.merged then some { s.goto t c .insert with parent := parent', seen := (c.src, c.dst) :: s.seen }
      else some { s.goto t c .find with parent := parent' }
  | .insert =>
    some { s.goto t c .unlock with
           spanningForest := Function.update s.spanningForest c.src (insert c.dst (s.spanningForest c.src)) }
  | .find =>
    if c.dst ∈ s.spanningForest c.src then some (s.goto t c .clearValid)
    else some { s.goto t c .unlock with seen := (c.src, c.dst) :: s.seen }
  | .clearValid => some { s.goto t c .clearShared with dsuValid := false, seen := (c.src, c.dst) :: s.seen }
  | .clearShared => some { s.goto t c .unlock with sharedDsuValid := false }
  | .unlock =>
    some { s with mtx := Function.update s.mtx c.src none, thr := Function.update s.thr t none }

/-- the next step of the querying thread, outside `boruvka_emulation` and the OpenMP loop -/
def querierStep (s : St n T) (o : Side) : Option (St n T) :=
  match s.query with
  | .testValid (.pointQuery a b) =>
    some { s with query := if s.dsuValid then .ready (.pointQuery a b) else .boruvka (.pointQuery a b) }
  | .testValid q => some { s with query := if s.sharedDsuValid then .ready q else .boruvka q }
  | .ready (.pointQuery a b) => some { s with query := .first o a b (.start (pick o a b)) }
  | .ready (.connectedComponents owner) => some { s with query := .loop (.connectedComponents owner) owner }
  | .ready (.calcSpanningForest owner) => some { s with query := .loop (.calcSpanningForest owner) owner }
  | .first o' a b f =>
    match f.step s.parent o with
    | (parent', .inl f') => some { s with parent := parent', query := .first o' a b f' }
    | (parent', .inr r) => some { s with parent := parent', query := .second o' a b r (.start (pick o'.other a b)) }
  | .second o' a b r f =>
    match f.step s.parent o with
    | (parent', .inl f') => some { s with parent := parent', query := .second o' a b r f' }
    | (parent', .inr r') => some { s with parent := parent', query := .answered (.connected a b (r == r')) }
  | _ => none

/-- the next step of thread t in the OpenMP loop -/
def teamStep (s : St n T) (q : Query n T) (thr : Fin T → TeamThread n) (arr : Fin n → Fin n) (t : Fin T) (o : Side) :
    Option (St n T) :=
  match (thr t).cur, (thr t).todo with
  | none, [] => none
  | none, v :: vs => some { s with query := .team q (Function.update thr t ⟨vs, some (v, .start v)⟩) arr }
  | some (v, f), todo =>
    match f.step s.parent o with
    | (parent', .inl f') =>
      some { s with parent := parent', query := .team q (Function.update thr t ⟨todo, some (v, f')⟩) arr }
    | (parent', .inr r) =>
      some { s with
             parent := parent'
             query := .team q (Function.update thr t ⟨todo, none⟩) (Function.update arr v r) }

/-- what the query returns after the loop; `num_cc` counts the vertices with `parent_arr[i] == i` -/
def answerOf (s : St n T) (arr : Fin n → Fin n) : Query n T → Answer n
  | .calcSpanningForest _ => .spanningForest s.spanningForest
  | _ => .components arr (Finset.univ.filter fun v => arr v = v).card

def step (priority : Fin n → ℕ) (s : St n T) : Label n T → Option (St n T)
  | .preInsert t upd =>
    if s.query.free ∧ s.thr t = none then
      some { s with
             thr := Function.update s.thr t (some ⟨min upd.1 upd.2, max upd.1 upd.2, .testValid⟩)
             query := .idle
             updates := upd :: s.updates }
    else none
  | .thread t o =>
    match s.thr t with
    | none => none
    | some c => insertStep priority s t o c
  | .query q => if s.query.free ∧ ∀ t, s.thr t = none then some { s with query := .testValid q } else none
  | .querier o => querierStep s o
  | .boruvka parent spanningForest =>
    match s.query with
    | .boruvka q =>
      some { s with
             parent := parent
             spanningForest := spanningForest
             dsuValid := true
             sharedDsuValid := true
             query := .ready q }
    | _ => none
  | .team t o =>
    match s.query with
    | .team q thr arr => teamStep s q thr arr t o
    | _ => none
  | .join =>
    match s.query with
    | .team q thr arr =>
      if ∀ t, (thr t).todo = [] ∧ (thr t).cur = none then some { s with query := .answered (answerOf s arr q) }
      else none
    | _ => none

end GraphStreamingCC.Eager
