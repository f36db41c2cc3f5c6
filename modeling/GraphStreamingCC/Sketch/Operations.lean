/-
Programs over sketches of one seed and shape (src/sketch.cpp), and what they leave in the buckets.

A program is a list of operations on named sketches; `merge` and `merge_raw_bucket_buffer` may take a sketch into itself.
`track` follows, beside the sketches, the list of indices that were put into each: a merge adds those of the other sketch,
`zero_contents` clears them. One operation keeps that every array is the sum of the contributions of its indices
(`step_sum`), so at the end it is `encode` of those with an odd count (`linearity`).
-/
import GraphStreamingCC.Core.Codec
import GraphStreamingCC.Core.Runs
import GraphStreamingCC.Sketch.Encode

namespace GraphStreamingCC

/-! ## Bytes -/

namespace CCSketchAlg

/-- the packed `struct Bucket` -/
def bucketPair : BitVec 64 × BitVec 64 ≃ Bucket where
  toFun x := ⟨x.1, x.2⟩
  invFun b := (b.alpha, b.gamma)
  left_inv _ := rfl
  right_inv _ := rfl

/-- `Sketch::serialize`, and the constructor from a stream: the packed bucket array -/
def buckets (P : Params) : Codec (Fin P.numBuckets → Bucket) :=
  (((Codec.word 8).pair (Codec.word 8)).equiv bucketPair).array P.numBuckets

end CCSketchAlg

namespace Sketch

open Parity Runs

open scoped symmDiff

variable {P : Params}

def serialize (s : Sketch P) : List Byte := (CCSketchAlg.buckets P).write s.buckets

/-- the constructor from a serialized stream, with the bytes it leaves -/
def ofStream (P : Params) (binaryIn : List Byte) : Option (Sketch P × List Byte) :=
  ((CCSketchAlg.buckets P).read binaryIn).map fun x => (⟨0, x.1⟩, x.2)

theorem ofStream_serialize (s : Sketch P) (rest : List Byte) :
    ofStream P (s.serialize ++ rest) = some (⟨0, s.buckets⟩, rest) := by
  rw [ofStream, serialize, (CCSketchAlg.buckets P).read_write, Option.map_some]

/-- the copy constructor -/
def copy (s : Sketch P) : Sketch P := ⟨0, s.buckets⟩

/-! ## Programs -/

/-- an operation on the sketches named by α -/
inductive Op (α : Type*) where
  | construct (i : α)
  | update (i : α) (updateIdx : BitVec 64)
  | merge (i other : α)
  /-- of the buckets that `get_readonly_bucket_ptr` of the other sketch points to -/
  | mergeRawBucketBuffer (i other : α)
  | copy (i other : α)
  | zeroContents (i : α)
  /-- sketch i is constructed from what the other one is serialized to -/
  | reload (i other : α)

variable {α : Type*} [DecidableEq α]

def step (s : α → Sketch P) : Op α → Option (α → Sketch P)
  | .construct i => some (Function.update s i (empty P))
  | .update i updateIdx => some (Function.update s i ((s i).update updateIdx))
  | .merge i other => some (Function.update s i ((s i).merge (s other)))
  | .mergeRawBucketBuffer i other => some (Function.update s i ((s i).mergeRawBucketBuffer (s other).buckets))
  | .copy i other => some (Function.update s i (s other).copy)
  | .zeroContents i => some (Function.update s i (s i).zeroContents)
  | .reload i other => (ofStream P (s other).serialize).map fun x => Function.update s i x.1

/-- the indices put into each sketch, with their repetitions -/
def track (idxs : α → List (BitVec 64)) : Op α → α → List (BitVec 64)
  | .construct i | .zeroContents i => Function.update idxs i []
  | .update i updateIdx => Function.update idxs i (updateIdx :: idxs i)
  | .merge i other | .mergeRawBucketBuffer i other => Function.update idxs i (idxs i ++ idxs other)
  | .copy i other | .reload i other => Function.update idxs i (idxs other)

/-- the indices put in by a whole program -/
def occurrences (ops : List (Op α)) : α → List (BitVec 64) := ops.foldl track fun _ => []

/-- every array is the sum of what was put in -/
def Sums (s : α → Sketch P) (idxs : α → List (BitVec 64)) : Prop := ∀ i, (s i).buckets = ((idxs i).map (contrib P)).sum

theorem Sums.update {s : α → Sketch P} {idxs : α → List (BitVec 64)} (h : Sums s idxs) (i : α) {skt : Sketch P}
    {l : List (BitVec 64)} (hi : skt.buckets = (l.map (contrib P)).sum) :
    Sums (Function.update s i skt) (Function.update idxs i l) := by
  intro j
  by_cases hj : j = i
  · subst hj
    rw [Function.update_self, Function.update_self, hi]
  · rw [Function.update_of_ne hj, Function.update_of_ne hj, h j]

/-- every operation can be executed, and keeps the sums -/
theorem step_sum {s : α → Sketch P} {idxs : α → List (BitVec 64)} (h : Sums s idxs) (op : Op α) :
    ∃ s', step s op = some s' ∧ Sums s' (track idxs op) := by
  cases op with
  | construct i => exact ⟨_, rfl, h.update i rfl⟩
  | update i x =>
    refine ⟨_, rfl, h.update i ?_⟩
    rw [update_buckets, h i, List.map_cons, List.sum_cons, add_comm]
  | merge i other =>
    refine ⟨_, rfl, h.update i ?_⟩
    rw [merge_buckets, h i, h other, List.map_append, List.sum_append]
  | mergeRawBucketBuffer i other =>
    refine ⟨_, rfl, h.update i ?_⟩
    rw [mergeRawBucketBuffer_buckets, h i, h other, List.map_append, List.sum_append]
  | copy i other => exact ⟨_, rfl, h.update i (h other)⟩
  | zeroContents i => exact ⟨_, rfl, h.update i rfl⟩
  | reload i other =>
    have hread := ofStream_serialize (s other) []
    rw [List.append_nil] at hread
    exact ⟨Function.update s i ⟨0, (s other).buckets⟩, by rw [step, hread, Option.map_some], h.update i (h other)⟩

theorem exec_sum {s : α → Sketch P} {idxs : α → List (BitVec 64)} (h : Sums s idxs) (ops : List (Op α)) :
    ∃ s', exec step s ops = some s' ∧ Sums s' (ops.foldl track idxs) := by
  induction ops generalizing s idxs with
  | nil => exact ⟨s, rfl, h⟩
  | cons op ops ih =>
    obtain ⟨s₁, h₁, hs₁⟩ := step_sum h op
    obtain ⟨s₂, h₂, hs₂⟩ := ih hs₁
    exact ⟨s₂, by rw [exec_cons step ops h₁, h₂], hs₂⟩

theorem exec_encode {ops : List (Op α)} {s : α → Sketch P} (hs : exec step (fun _ => empty P) ops = some s) (i : α) :
    (s i).buckets = encode P (oddSet (occurrences ops i)) := by
  have h0 : Sums (fun _ : α => empty P) fun _ => [] := fun _ => rfl
  obtain ⟨s', hs', hsum⟩ := exec_sum h0 ops
  cases hs.symm.trans hs'
  rw [hsum i, sum_contrib_eq_encode]
  rfl

/-- **Linearity.** A program over zeroed sketches can always be executed. The buckets of every sketch are those of the
set of indices put in an odd number of times, whatever the order was; any two programs with the same set leave the same
buckets; and the merge of two sketches has the buckets of the symmetric difference of their sets. -/
theorem linearity (ops : List (Op α)) : ∃ s, exec step (fun _ => empty P) ops = some s ∧
    (∀ i, Encodes (s i).buckets (oddSet (occurrences ops i))) ∧
    (∀ ops' s', exec step (fun _ : α => empty P) ops' = some s' → ∀ i j,
      oddSet (occurrences ops i) = oddSet (occurrences ops' j) → (s i).buckets = (s' j).buckets) ∧
    ∀ i j, Encodes ((s i).merge (s j)).buckets (oddSet (occurrences ops i) ∆ oddSet (occurrences ops j)) := by
  have h0 : Sums (fun _ : α => empty P) fun _ => [] := fun _ => rfl
  obtain ⟨s, hs, -⟩ := exec_sum h0 ops
  refine ⟨s, hs, fun i => encodes_iff.2 (exec_encode hs i), ?_, fun i j => encodes_iff.2 ?_⟩
  · intro ops' s' hs' i j he
    rw [exec_encode hs, exec_encode hs', he]
  · rw [merge_buckets, exec_encode hs, exec_encode hs, encode_add]

end Sketch

end GraphStreamingCC
