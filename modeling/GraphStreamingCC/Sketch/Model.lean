/-
Sketches of edge sets (include/bucket.h, src/sketch.cpp) and the encoding of edges as indices (src/util.cpp).

A sketch is an array of buckets, each the XOR of the indices and of the index hashes that fell into it: the buckets of
`num_samples * cols_per_sample` columns, and one deterministic bucket at the end that takes every index. The hash
`XXH3_64bits_withSeed` is external and stays a parameter, with the seed and the sizes, in `Params`; both builds of
`Sketch::update` (`L0_SAMPLING` defined or not) are covered.
-/
import Mathlib.Tactic
import Mathlib.Data.BitVec

namespace GraphStreamingCC

/-- what all sketches of one algorithm share: the hash function, the seed, and the sizes -/
structure Params where
  /-- `XXH3_64bits_withSeed` of the 8 bytes of an index -/
  xxh3 : BitVec 64 → BitVec 64 → BitVec 64
  seed : BitVec 64
  numSamples : ℕ
  colsPerSample : ℕ
  bktPerCol : ℕ
  /-- built with `L0_SAMPLING` -/
  l0Sampling : Bool

namespace Params

def numColumns (P : Params) : ℕ := P.numSamples * P.colsPerSample

/-- plus 1 for the deterministic bucket -/
def numBuckets (P : Params) : ℕ := P.numColumns * P.bktPerCol + 1

def columnSeed (P : Params) (columnIdx : ℕ) : BitVec 64 := P.seed + BitVec.ofNat 64 (columnIdx * 5)

def checksumSeed (P : Params) : BitVec 64 := P.seed

end Params

/-! ## Buckets -/

structure Bucket where
  alpha : BitVec 64
  gamma : BitVec 64
deriving DecidableEq, Repr

namespace Bucket

/-- `__builtin_ctzll`: the number of trailing zeros -/
def ctz (x : BitVec 64) : ℕ := ((List.range 64).find? fun k => x.getLsbD k).getD 64

def getIndexDepth (P : Params) (updateIdx seedAndCol : BitVec 64) (maxDepth : ℕ) : ℕ :=
  ctz (P.xxh3 updateIdx seedAndCol ||| 1#64 <<< maxDepth)

def getIndexHash (P : Params) (updateIdx sketchSeed : BitVec 64) : BitVec 64 := P.xxh3 updateIdx sketchSeed

def isGood (P : Params) (b : Bucket) (sketchSeed : BitVec 64) : Bool := b.gamma == getIndexHash P b.alpha sketchSeed

def update (b : Bucket) (updateIdx updateHash : BitVec 64) : Bucket := ⟨b.alpha ^^^ updateIdx, b.gamma ^^^ updateHash⟩

/-- `a.alpha ^= b.alpha; a.gamma ^= b.gamma` -/
def merge (a b : Bucket) : Bucket := ⟨a.alpha ^^^ b.alpha, a.gamma ^^^ b.gamma⟩

end Bucket

/-! ## Sketches -/

@[ext] structure Sketch (P : Params) where
  sampleIdx : ℕ
  buckets : Fin P.numBuckets → Bucket

inductive SampleResult where
  /-- sampling this sketch returned a single non-zero value -/
  | good
  /-- there are no non-zero values -/
  | zero
  /-- sampling this sketch failed to produce a single non-zero value -/
  | fail
deriving DecidableEq, Repr

structure SketchSample where
  idx : BitVec 64
  result : SampleResult
deriving DecidableEq, Repr

structure OutOfSamplesException where
  seed : BitVec 64
  numSamples : ℕ
  sampleIdx : ℕ
deriving DecidableEq, Repr

def OutOfSamplesException.what (e : OutOfSamplesException) : String :=
  "This sketch (seed=" ++ toString e.seed.toNat ++ ", max samples=" ++ toString e.numSamples ++
    ") cannot be sampled more times (cur idx=" ++ toString e.sampleIdx ++ ")!"

namespace Sketch

variable {P : Params}

/-- the constructor -/
def empty (P : Params) : Sketch P := ⟨0, fun _ => ⟨0, 0⟩⟩

/-- the bucket id of the deterministic bucket -/
def detBucket (P : Params) : Fin P.numBuckets := Fin.last _

/-- the bucket ids that `update` changes in column i -/
def columnBuckets (P : Params) (updateIdx : BitVec 64) (i : ℕ) : List ℕ :=
  let depth := Bucket.getIndexDepth P updateIdx (P.columnSeed i) P.bktPerCol
  if depth < P.bktPerCol then
    if P.l0Sampling then (List.range (depth + 1)).map fun j => i * P.bktPerCol + j else [i * P.bktPerCol + depth]
  else []

/-- one `Bucket_Boruvka::update(buckets[bucket_id], update_idx, checksum)` -/
def updateBucket (updateIdx checksum : BitVec 64) (buckets : Fin P.numBuckets → Bucket) (bucketId : ℕ) :
    Fin P.numBuckets → Bucket :=
  fun b => if b.val = bucketId then (buckets b).update updateIdx checksum else buckets b

def update (s : Sketch P) (updateIdx : BitVec 64) : Sketch P :=
  let checksum := Bucket.getIndexHash P updateIdx P.checksumSeed
  let buckets := updateBucket updateIdx checksum s.buckets (detBucket P)
  { s with
    buckets := (List.range P.numColumns).foldl
      (fun bs i => (columnBuckets P updateIdx i).foldl (updateBucket updateIdx checksum) bs) buckets }

def resetSampleState (s : Sketch P) : Sketch P := { s with sampleIdx := 0 }

def zeroContents (s : Sketch P) : Sketch P := resetSampleState { s with buckets := fun _ => ⟨0, 0⟩ }

/-- the bucket ids that sample number `idx` looks at, in the order of the two loops of `sample` -/
def sampleBuckets (P : Params) (idx : ℕ) : List (Fin P.numBuckets) :=
  ((List.range P.colsPerSample).flatMap fun i =>
    (List.range P.bktPerCol).map fun j => (i + idx * P.colsPerSample) * P.bktPerCol + j).filterMap
      fun b => if h : b < P.numBuckets then some ⟨b, h⟩ else none

/-- what sample number `idx` returns -/
def sampleAt (s : Sketch P) (idx : ℕ) : SketchSample :=
  let det := s.buckets (detBucket P)
  if det.alpha = 0 ∧ det.gamma = 0 then ⟨0, .zero⟩
  else if det.isGood P P.checksumSeed then ⟨det.alpha, .good⟩
  else
    match (sampleBuckets P idx).find? fun b => (s.buckets b).isGood P P.checksumSeed with
    | some b => ⟨(s.buckets b).alpha, .good⟩
    | none => ⟨0, .fail⟩

def sample (s : Sketch P) : Except OutOfSamplesException (Sketch P × SketchSample) :=
  if s.sampleIdx ≥ P.numSamples then .error ⟨P.seed, P.numSamples, s.sampleIdx⟩
  else .ok ({ s with sampleIdx := s.sampleIdx + 1 }, s.sampleAt s.sampleIdx)

def merge (s other : Sketch P) : Sketch P := { s with buckets := fun b => (s.buckets b).merge (other.buckets b) }

def rangeMerge (s other : Sketch P) (startSample nSamples : ℕ) : Sketch P :=
  if startSample + nSamples > P.numSamples then
    -- assert(false) in a debug build: the sketch is in a fail state
    { s with sampleIdx := P.numSamples }
  else
    let startBucketId := startSample * P.colsPerSample * P.bktPerCol
    let nBuckets := nSamples * P.colsPerSample * P.bktPerCol
    { sampleIdx := max s.sampleIdx startSample
      buckets := fun b =>
        if b = detBucket P ∨ startBucketId ≤ b.val ∧ b.val < startBucketId + nBuckets then
          (s.buckets b).merge (other.buckets b)
        else s.buckets b }

def mergeRawBucketBuffer (s : Sketch P) (rawBuckets : Fin P.numBuckets → Bucket) : Sketch P :=
  { s with buckets := fun b => (s.buckets b).merge (rawBuckets b) }

end Sketch

/-! ## Edges -/

structure Edge where
  src : BitVec 32
  dst : BitVec 32
deriving DecidableEq, Repr

/-- concatenate two node ids to an edge id, the smaller one in front -/
def concatPairingFn (i j : BitVec 32) : BitVec 64 :=
  let (i, j) := if i > j then (j, i) else (i, j)
  i.setWidth 64 <<< 32 ||| j.setWidth 64

def invConcatPairingFn (idx : BitVec 64) : Edge := ⟨(idx >>> 32).setWidth 32, (idx &&& 0xFFFFFFFF#64).setWidth 32⟩

/-- the edge id of two vertices -/
def edgeIdx {n : ℕ} (u v : Fin n) : BitVec 64 := concatPairingFn (BitVec.ofNat 32 u) (BitVec.ofNat 32 v)

end GraphStreamingCC
