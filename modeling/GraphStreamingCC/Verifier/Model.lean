/-
The verifier of the tests, `GraphVerifier` (src/test/util/graph_verifier.cpp).

It keeps the upper triangle of an adjacency matrix, diagonal included: the edge between i and i + j is
`adj_matrix[i][j]`, and a `Cell` is such a pair of indices. Beside it, it keeps the union-find and the component count
that `kruskal` has computed last, and a flag that they are out of date. A function that may throw returns the object
that it leaves behind together with its verdict.

`call`: any of the public functions; `verdicts`: the verdicts of a sequence of calls. The constructor and the copy leave
`kruskal_ccs` uninitialized: it is an argument of them.
-/
import Mathlib.Data.Fintype.Basic
import Mathlib.Data.List.FinRange
import GraphStreamingCC.Dsu.Sequential

namespace GraphStreamingCC

variable {n : ℕ}

/-- the indices of an entry of the matrix: row i has `num_vertices - i` entries -/
abbrev Cell (n : ℕ) := (i : Fin n) × Fin (n - i)

/-- the end points i and i + j -/
def Cell.edge (c : Cell n) : Fin n × Fin n := (c.1, ⟨c.1 + c.2, by omega⟩)

/-- `if (src > dst) std::swap(src, dst)`, `dst - src` -/
def cellOf (e : Fin n × Fin n) : Cell n :=
  if h : e.1 > e.2 then ⟨e.2, ⟨e.1 - e.2, by omega⟩⟩ else ⟨e.1, ⟨e.2 - e.1, by omega⟩⟩

/-- the entries in the order of the loops of `kruskal` -/
def cells (n : ℕ) : List (Cell n) :=
  (List.finRange n).flatMap fun i : Fin n => (List.finRange (n - i.val)).map fun j => ⟨i, j⟩

structure ConnectedComponents (n : ℕ) where
  parentArr : Fin n → Fin n
  numCc : ℕ

def ConnectedComponents.isConnected (cc : ConnectedComponents n) (a b : Fin n) : Bool := cc.parentArr a == cc.parentArr b

def ConnectedComponents.size (cc : ConnectedComponents n) : ℕ := cc.numCc

/-- the edges of a `SpanningForest`, in its order -/
abbrev SpanningForest (n : ℕ) := List (Fin n × Fin n)

inductive VerifierException where
  | badEdge (what : String)
  | incorrectCC (what : String)
  | incorrectForest (what : String)
deriving DecidableEq, Repr

abbrev Verdict := Except VerifierException Unit

structure GraphVerifier (n : ℕ) where
  adjMatrix : Cell n → Bool
  kruskalDsu : DisjointSetUnion n
  kruskalCcs : ℕ
  needQueryCompute : Bool

namespace GraphVerifier

/-! ## Construction -/

def new (priority : Fin n → ℕ) (kruskalCcs : ℕ) : GraphVerifier n := ⟨fun _ => false, .ofPriority priority, kruskalCcs, true⟩

def copy (oth : GraphVerifier n) (kruskalCcs : ℕ) : GraphVerifier n := ⟨oth.adjMatrix, oth.kruskalDsu, kruskalCcs, true⟩

/-- `adj_matrix[src][dst] = !adj_matrix[src][dst]` -/
def toggle (adjMatrix : Cell n → Bool) (e : Fin n × Fin n) : Cell n → Bool :=
  Function.update adjMatrix (cellOf e) (!adjMatrix (cellOf e))

/-! ## Updates -/

def edgeUpdate (g : GraphVerifier n) (src dst : ℕ) : GraphVerifier n × Verdict :=
  if h : src ≥ n ∨ dst ≥ n then
    (g, .error (.badEdge ("Source " ++ toString src ++ " or Destination " ++ toString dst ++ " out of bounds!")))
  else ({ g with adjMatrix := toggle g.adjMatrix (⟨src, by omega⟩, ⟨dst, by omega⟩), needQueryCompute := true }, .ok ())

def combine (g oth : GraphVerifier n) : GraphVerifier n :=
  { g with adjMatrix := fun c => g.adjMatrix c != oth.adjMatrix c }

/-! ## Queries -/

/-- one entry in the loops of `kruskal` -/
def kruskalStep (adjMatrix : Cell n → Bool) (s : DisjointSetUnion n × ℕ) (c : Cell n) : DisjointSetUnion n × ℕ :=
  if adjMatrix c then
    let r := s.1.merge c.edge.1 c.edge.2
    (r.1, if r.2.merged then s.2 - 1 else s.2)
  else s

def kruskal (g : GraphVerifier n) : GraphVerifier n :=
  if g.needQueryCompute then
    let s := (cells n).foldl (kruskalStep g.adjMatrix) (g.kruskalDsu.reset, n)
    { g with kruskalDsu := s.1, kruskalCcs := s.2, needQueryCompute := false }
  else g

/-- the constructor that reads a cumulative stream file, whose edges are `edges` -/
def ofCumulFile (priority : Fin n → ℕ) (kruskalCcs : ℕ) (edges : List (Fin n × Fin n)) : GraphVerifier n :=
  { new priority kruskalCcs with adjMatrix := edges.foldl toggle fun _ => false }.kruskal

def verifyEdge (g : GraphVerifier n) (e : Fin n × Fin n) : Verdict :=
  if g.adjMatrix (cellOf e) then .ok () else .error (.badEdge "The edge is not in the cut of the sample!")

/-- the loop of `verify_connected_components` over the vertices -/
def checkConnected (cc : ConnectedComponents n) (d : DisjointSetUnion n) : List (Fin n) → DisjointSetUnion n × Verdict
  | [] => (d, .ok ())
  | i :: is =>
    let r := d.findRoot i
    if cc.isConnected r.2 i then checkConnected cc r.1 is else (r.1, .error (.incorrectCC "Incorrect Connectivity!"))

def verifyConnectedComponents (g : GraphVerifier n) (cc : ConnectedComponents n) : GraphVerifier n × Verdict :=
  let g := g.kruskal
  if g.kruskalCcs ≠ cc.size then (g, .error (.incorrectCC "Incorrect number of components!"))
  else
    let r := checkConnected cc g.kruskalDsu (List.finRange n)
    ({ g with kruskalDsu := r.1 }, r.2)

/-- the text of the exception for an edge that joins nothing -/
def redundant (e : Fin n × Fin n) : String :=
  "Found an edge: (" ++ toString e.1.val ++ ", " ++ toString e.2.val ++ ") that is redundant within a single spanning forest!"

/-- the loop of `verify_spanning_forests` over the edges of a forest; `forestCcs` is the union-find of those before -/
def takeForest (g : GraphVerifier n) (forestCcs : DisjointSetUnion n) :
    SpanningForest n → GraphVerifier n × Except VerifierException (DisjointSetUnion n)
  | [] => (g, .ok forestCcs)
  | e :: es =>
    let r := forestCcs.merge e.1 e.2
    if !r.2.merged then (g, .error (.incorrectForest (redundant e)))
    else
      match g.verifyEdge e with
      | .error x => (g, .error x)
      | .ok () => takeForest (g.edgeUpdate e.1 e.2).1 r.1 es

/-- its loop over the vertices: `root_map` translates the roots of `kruskal_dsu` to those of the forest -/
def compareRoots (rootMap : Fin n → Option (Fin n)) (d forestCcs : DisjointSetUnion n) :
    List (Fin n) → DisjointSetUnion n × Verdict
  | [] => (d, .ok ())
  | i :: is =>
    let k := d.findRoot i
    let f := forestCcs.findRoot i
    match rootMap k.2 with
    | none => compareRoots (Function.update rootMap k.2 (some f.2)) k.1 f.1 is
    | some x =>
      if x ≠ f.2 then (k.1, .error (.incorrectForest "Forest does not match expected component sets!"))
      else compareRoots rootMap k.1 f.1 is

/-- its loop over the forests; every exit restores the matrix -/
def verifyForests (backup : Cell n → Bool) (priority : ℕ → Fin n → ℕ) (g : GraphVerifier n) :
    List (SpanningForest n) → GraphVerifier n × Verdict
  | [] => ({ g with adjMatrix := backup }, .ok ())
  | forest :: sfs =>
    match takeForest g.kruskal (.ofPriority (priority 0)) forest with
    | (g, .error x) => ({ g with adjMatrix := backup }, .error x)
    | (g, .ok forestCcs) =>
      match compareRoots (fun _ => none) g.kruskalDsu forestCcs (List.finRange n) with
      | (d, .error x) => ({ g with adjMatrix := backup, kruskalDsu := d }, .error x)
      | (d, .ok ()) => verifyForests backup (fun k => priority (k + 1)) { g with kruskalDsu := d } sfs

def verifySpanningForests (g : GraphVerifier n) (priority : ℕ → Fin n → ℕ) (sfs : List (SpanningForest n)) :
    GraphVerifier n × Verdict :=
  verifyForests g.adjMatrix priority g sfs

/-! ## Sequences of calls -/

inductive Call (n : ℕ) where
  | edgeUpdate (src dst : ℕ)
  | verifyEdge (e : Fin n × Fin n)
  | verifyConnectedComponents (cc : ConnectedComponents n)
  | verifySpanningForests (sfs : List (SpanningForest n))

/-- a call, and the priorities of the union-finds that it constructs -/
structure Label (n : ℕ) where
  priority : ℕ → Fin n → ℕ
  call : Call n

def call (g : GraphVerifier n) (l : Label n) : GraphVerifier n × Verdict :=
  match l.call with
  | .edgeUpdate src dst => g.edgeUpdate src dst
  | .verifyEdge e => (g, g.verifyEdge e)
  | .verifyConnectedComponents cc => g.verifyConnectedComponents cc
  | .verifySpanningForests sfs => g.verifySpanningForests l.priority sfs

/-- the object that a call leaves behind, whether it throws or not -/
def step (g : GraphVerifier n) (l : Label n) : Option (GraphVerifier n) := some (g.call l).1

def verdicts (g : GraphVerifier n) : List (Label n) → List Verdict
  | [] => []
  | l :: ls => (g.call l).2 :: verdicts (g.call l).1 ls

/-- `edge_update` of edges in range, one after the other -/
def afterUpdates (g : GraphVerifier n) (edges : List (Fin n × Fin n)) : GraphVerifier n :=
  edges.foldl (fun g e => (g.edgeUpdate e.1 e.2).1) g

end GraphVerifier

end GraphStreamingCC
