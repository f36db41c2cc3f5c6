/-
A Boruvka round (src/cc_sketch_alg.cpp: `run_round_zero`, `perform_boruvka_round`, `sample_supernode`, `merge_global`,
`find_last_partition_of_root`), as an interleaving of the threads of its parallel region.

What a thread does to shared data is a list of acts, which its loop determines beforehand: the loop reads only
`merge_instr` and the vertex sketches, and neither changes while the loops run. `threadActs` is this loop; in round 0,
`roundZeroActs` are the iterations that OpenMP gives to a thread. The acts run interleaved: a locked region is one step,
and so is a call of `sample`; the `dsu.merge` of a good sample runs at its atomic operations.
-/
import GraphStreamingCC.Boruvka.Segments
import GraphStreamingCC.Dsu.Model
import GraphStreamingCC.Sketch.Model

namespace GraphStreamingCC.Boruvka

open Dsu

/-! ## The merge instructions -/

structure MergeInstr (n : ℕ) where
  root : Fin n
  child : Fin n
deriving DecidableEq, Repr

variable {P : Params} {n T : ℕ}

/-- `operator<` against the instruction {root, child}, whose child need not be a vertex -/
def MergeInstr.before (m : MergeInstr n) (root child : ℕ) : Bool :=
  if m.root = root then m.child < child else m.root < root

/-- the array access `merge_instr[i]`; `none` is out of bounds -/
def instrAt (mergeInstr : Fin n → MergeInstr n) (i : ℕ) : Option (MergeInstr n) :=
  if h : i < n then some (mergeInstr ⟨i, h⟩) else none

/-- the loop `while (min < max)` of the binary search; `fuel` bounds its iterations -/
def searchLoop (mergeInstr : Fin n → MergeInstr n) (root : Fin n) : (fuel min max : ℕ) → ℕ
  | 0, min, _ => min
  | fuel + 1, min, max =>
    if min < max then
      let mid := min + (max - min) / 2
      -- the child of the target is `(node_id_t) -1`
      if (instrAt mergeInstr mid).any fun m => m.before root (2 ^ 32 - 1) then searchLoop mergeInstr root fuel (mid + 1) max
      else searchLoop mergeInstr root fuel min mid
    else min

def findLastPartitionOfRoot (mergeInstr : Fin n → MergeInstr n) (root : Fin n) (minHint numThreads : ℕ) : ℕ :=
  let min := searchLoop mergeInstr root n minHint (n - 1)
  let min := if (instrAt mergeInstr min).map MergeInstr.root ≠ some root then min - 1 else min
  getPartitionIdx n min numThreads

/-! ## What a thread does -/

inductive Act (P : Params) (n : ℕ) where
  /-- `sample_supernode(*sketches[v])` -/
  | sampleVertex (v : Fin n)
  /-- `sample_supernode(local_sketch)`, for the supernode `root` -/
  | sampleLocal (root : Fin n) (localSketch : Sketch P)
  /-- `global_merges[globalId].num_merge_needed = needed` -/
  | setNeeded (globalId : ℕ) (root : Fin n) (needed : ℕ)
  /-- `merge_global` into `global_merges[globalId]`, and `sample_supernode` of its sketch if it is ready -/
  | mergeGlobal (globalId : ℕ) (root : Fin n) (localSketch : Sketch P)
  /-- an array access out of bounds -/
  | undefined

/-- the local variables of the loop -/
structure Scan (P : Params) (n : ℕ) where
  acts : List (Act P n)
  curRoot : Fin n
  rootFromLeft : Bool
  localSketch : Sketch P

/-- the body of the loop -/
def Scan.visit (sketches : Fin n → Sketch P) (curRound thrId : ℕ) (sc : Scan P n) (m : MergeInstr n) : Scan P n :=
  let sc : Scan P n :=
    if m.root ≠ sc.curRoot then
      { acts := sc.acts ++
          [if sc.rootFromLeft then .mergeGlobal thrId sc.curRoot sc.localSketch else .sampleLocal sc.curRoot sc.localSketch]
        curRoot := m.root
        rootFromLeft := false
        localSketch := sc.localSketch.zeroContents }
    else sc
  { sc with localSketch := sc.localSketch.rangeMerge (sketches m.child) curRound 1 }

/-- what comes after the loop; the difference of thread ids is a `size_t` -/
def Scan.finish (mergeInstr : Fin n → MergeInstr n) (numThreads thrId start : ℕ) (rootExitsRight : Bool)
    (sc : Scan P n) : List (Act P n) :=
  if rootExitsRight || sc.rootFromLeft then
    let globalId := findLastPartitionOfRoot mergeInstr sc.curRoot start numThreads
    sc.acts ++ (if sc.rootFromLeft then [] else
        [.setNeeded globalId sc.curRoot ((globalId + 2 ^ 64 - thrId + 1) % 2 ^ 64)]) ++
      [.mergeGlobal globalId sc.curRoot sc.localSketch]
  else sc.acts ++ [.sampleLocal sc.curRoot sc.localSketch]

/-- what a thread with the segment from `start` to `stop` does -/
def segmentActs (mergeInstr : Fin n → MergeInstr n) (sketches : Fin n → Sketch P) (curRound numThreads thrId start stop : ℕ) :
    List (Act P n) :=
  match instrAt mergeInstr start with
  | none => [.undefined]
  | some m =>
    let rootFromLeft := decide (0 < start) && (instrAt mergeInstr (start - 1)).map MergeInstr.root == some m.root
    let rootExitsRight := decide (stop < n) &&
      (instrAt mergeInstr (stop - 1)).map MergeInstr.root == (instrAt mergeInstr stop).map MergeInstr.root
    (((loopRange n start stop).map mergeInstr).foldl (Scan.visit sketches curRound thrId)
      ⟨[], m.root, rootFromLeft, .empty P⟩).finish mergeInstr numThreads thrId start rootExitsRight

/-- the acts of thread `thrId` in `perform_boruvka_round` -/
def threadActs (mergeInstr : Fin n → MergeInstr n) (sketches : Fin n → Sketch P) (curRound numThreads thrId : ℕ) :
    List (Act P n) :=
  let partition := getIthPartition n thrId numThreads
  segmentActs mergeInstr sketches curRound numThreads thrId partition.1 partition.2

/-- the iterations of `run_round_zero` that thread t executes; `owner` is the schedule of the OpenMP loop -/
def roundZeroActs (owner : Fin n → Fin T) (t : Fin T) : List (Act P n) :=
  ((List.finRange n).filter fun v => owner v = t).map .sampleVertex

/-! ## The parallel region -/

structure GlobalMergeData (P : Params) where
  sketch : Sketch P
  numMergeNeeded : ℕ
  numMergeDone : ℕ

namespace GlobalMergeData

/-- at the begin of a round; `num_merge_needed = -1` -/
def fresh (P : Params) : GlobalMergeData P := ⟨(Sketch.empty P).zeroContents, 2 ^ 64 - 1, 0⟩

/-- the locked region of `merge_global` -/
def merge (g : GlobalMergeData P) (curRound : ℕ) (localSketch : Sketch P) : GlobalMergeData P :=
  { g with sketch := g.sketch.rangeMerge localSketch curRound 1, numMergeDone := g.numMergeDone + 1 }

/-- what `merge_global` returns -/
def ready (g : GlobalMergeData P) : Bool := g.numMergeDone ≥ g.numMergeNeeded

end GlobalMergeData

/-- the statement a thread has reached -/
inductive Pc (n : ℕ) where
  /-- between two acts -/
  | idle
  /-- `query_ready`: about to sample `global_merges[globalId].sketch` -/
  | ready (globalId : ℕ) (root : Fin n)
  /-- in `dsu.merge(e.src, e.dst)` -/
  | merge (e : Fin n × Fin n) (m : MergePc n)
  /-- about to insert the edge into the spanning forest -/
  | insert (e : Fin n × Fin n)
  /-- `sample_supernode` has returned true: about to set `modified` -/
  | mark
deriving DecidableEq, Repr

structure Thread (P : Params) (n : ℕ) where
  acts : List (Act P n)
  pc : Pc n

structure St (P : Params) (n T : ℕ) where
  sketches : Fin n → Sketch P
  parent : Fin n → Fin n
  spanningForest : Fin n → Finset (Fin n)
  globalMerges : ℕ → GlobalMergeData P
  thr : Fin T → Thread P n
  modified : Bool
  /-- the exception to rethrow after the parallel region -/
  err : Option OutOfSamplesException
  /-- the supernodes passed to `sample_supernode`, with their sketches, the latest first; no step reads it -/
  sampled : List (Fin n × Sketch P)

/-- the edge of a good sample, if its end points are vertices -/
def decodeEdge (n : ℕ) (idx : BitVec 64) : Option (Fin n × Fin n) :=
  let e := invConcatPairingFn idx
  if h : e.src.toNat < n ∧ e.dst.toNat < n then some (⟨e.src.toNat, h.1⟩, ⟨e.dst.toNat, h.2⟩) else none

/-- where `sample_supernode` goes with its sample; an edge between other ids has no defined behaviour -/
def afterSample (n : ℕ) (sample : SketchSample) : Option (Pc n) :=
  match sample.result with
  | .fail => some .mark
  | .zero => some .idle
  | .good => (decodeEdge n sample.idx).map fun e => .merge e (.loop e.1 e.2)

namespace St

/-- thread t goes on with the acts left and at statement `pc` -/
def goto (s : St P n T) (t : Fin T) (acts : List (Act P n)) (pc : Pc n) : St P n T :=
  { s with thr := Function.update s.thr t ⟨acts, pc⟩ }

/-- thread t samples supernode `root` by its sketch `skt`, which `put` stores; an exception skips the rest of the call -/
def sample (s : St P n T) (t : Fin T) (acts : List (Act P n)) (root : Fin n) (skt : Sketch P)
    (put : St P n T → Sketch P → St P n T) : Option (St P n T) :=
  match skt.sample with
  | .error e => some { s.goto t acts .idle with err := some e, sampled := (root, skt) :: s.sampled }
  | .ok (skt', smp) =>
    (afterSample n smp).map fun pc => put { s.goto t acts pc with sampled := (root, skt) :: s.sampled } skt'

def putVertex (v : Fin n) (s : St P n T) (skt : Sketch P) : St P n T :=
  { s with sketches := Function.update s.sketches v skt }

def putGlobal (id : ℕ) (s : St P n T) (skt : Sketch P) : St P n T :=
  { s with globalMerges := Function.update s.globalMerges id { s.globalMerges id with sketch := skt } }

end St

/-- thread t begins its next act -/
def actStep (curRound : ℕ) (s : St P n T) (t : Fin T) (acts : List (Act P n)) : Act P n → Option (St P n T)
  | .sampleVertex v => s.sample t acts v (s.sketches v) (St.putVertex v)
  | .sampleLocal root skt => s.sample t acts root skt fun s _ => s
  | .setNeeded id _ needed =>
    some { s.goto t acts .idle with
           globalMerges := Function.update s.globalMerges id { s.globalMerges id with numMergeNeeded := needed } }
  | .mergeGlobal id root skt =>
    let g := (s.globalMerges id).merge curRound skt
    some { s.goto t acts (if g.ready then .ready id root else .idle) with
           globalMerges := Function.update s.globalMerges id g }
  | .undefined => none

/-- the next step of thread t -/
def step (priority : Fin n → ℕ) (curRound : ℕ) (s : St P n T) (l : Fin T × Side) : Option (St P n T) :=
  match s.thr l.1 with
  | ⟨[], .idle⟩ => none
  | ⟨a :: acts, .idle⟩ => actStep curRound s l.1 acts a
  | ⟨acts, .ready id root⟩ => s.sample l.1 acts root (s.globalMerges id).sketch (St.putGlobal id)
  | ⟨acts, .merge e m⟩ =>
    match m.step priority s.parent l.2 with
    | (parent', .inl m') => some { s.goto l.1 acts (.merge e m') with parent := parent' }
    | (parent', .inr ret) => some { s.goto l.1 acts (if ret.merged then .insert e else .idle) with parent := parent' }
  | ⟨acts, .insert e⟩ =>
    let src := min e.1 e.2
    let dst := max e.1 e.2
    some { s.goto l.1 acts .mark with
           spanningForest := Function.update s.spanningForest src (insert dst (s.spanningForest src)) }
  | ⟨acts, .mark⟩ => some { s.goto l.1 acts .idle with modified := true }

/-- the parallel region begins, with these acts for the threads -/
def start (sketches : Fin n → Sketch P) (parent : Fin n → Fin n) (spanningForest : Fin n → Finset (Fin n))
    (progs : Fin T → List (Act P n)) : St P n T :=
  ⟨sketches, parent, spanningForest, fun _ => .fresh P, fun t => ⟨progs t, .idle⟩, false, none, []⟩

/-- all threads have reached the end of the parallel region -/
def Done (s : St P n T) : Prop := ∀ t, (s.thr t).acts = [] ∧ (s.thr t).pc = .idle

end GraphStreamingCC.Boruvka
