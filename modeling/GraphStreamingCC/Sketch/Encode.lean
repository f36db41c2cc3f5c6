/-
The index set that a sketch encodes.

`encode P S` is the sum of the contributions of the indices in S. `encode_det` and `encode_column` say what that is for
each bucket of the flat array: the deterministic bucket holds all of S, bucket d of column c the indices that `Lands`
there, which depends on the build. `Encodes` is the same as a predicate on an array, and an array that satisfies it is
`encode P S` (`encodes_iff`). Under XOR, two sets add up to their symmetric difference (`encode_add`).
-/
import GraphStreamingCC.Core.Parity
import GraphStreamingCC.Sketch.Linear

namespace GraphStreamingCC.Sketch

open Parity

open scoped symmDiff

variable {P : Params} {x : BitVec 64} {c d : ℕ}

/-! ## Where an index lands -/

/-- depth of index x in column c -/
def depth (P : Params) (x : BitVec 64) (c : ℕ) : ℕ := Bucket.getIndexDepth P x (P.columnSeed c) P.bktPerCol

theorem columnBuckets_eq (x : BitVec 64) (c : ℕ) : columnBuckets P x c =
    if depth P x c < P.bktPerCol then
      if P.l0Sampling then (List.range (depth P x c + 1)).map fun j => c * P.bktPerCol + j
      else [c * P.bktPerCol + depth P x c]
    else [] := rfl

/-- index x goes into bucket d of column c -/
def Lands (P : Params) (x : BitVec 64) (c d : ℕ) : Prop :=
  if P.l0Sampling then d ≤ depth P x c ∧ depth P x c < P.bktPerCol else depth P x c = d

instance : Decidable (Lands P x c d) := by
  unfold Lands
  infer_instance

/-- what an index adds to a bucket -/
def entry (P : Params) (x : BitVec 64) : Bucket := ⟨x, Bucket.getIndexHash P x P.checksumSeed⟩

/-- the position of bucket d of column c in the array -/
def position (P : Params) {c d : ℕ} (hc : c < P.numColumns) (hd : d < P.bktPerCol) : Fin P.numBuckets :=
  ⟨c * P.bktPerCol + d, by
    have h : (c + 1) * P.bktPerCol ≤ P.numColumns * P.bktPerCol := Nat.mul_le_mul_right _ hc
    rw [Nat.succ_mul] at h
    exact Nat.lt_succ_of_lt (by omega)⟩

theorem mem_columnBuckets_iff (hd : d < P.bktPerCol) : c * P.bktPerCol + d ∈ columnBuckets P x c ↔ Lands P x c d := by
  rw [columnBuckets_eq, Lands]
  by_cases hl : P.l0Sampling
  · by_cases hlt : depth P x c < P.bktPerCol
    · rw [if_pos hlt, if_pos hl, if_pos hl, List.mem_map]
      constructor
      · intro ⟨j, hj, he⟩
        have := List.mem_range.1 hj
        omega
      · intro h
        exact ⟨d, List.mem_range.2 (by omega), rfl⟩
    · rw [if_neg hlt, if_pos hl]
      simp [hlt]
  · by_cases hlt : depth P x c < P.bktPerCol
    · rw [if_pos hlt, if_neg hl, if_neg hl, List.mem_singleton]
      omega
    · rw [if_neg hlt, if_neg hl]
      simp only [List.not_mem_nil, false_iff]
      omega

theorem mem_touched_iff (hc : c < P.numColumns) (hd : d < P.bktPerCol) :
    (position P hc hd).val ∈ touched P x ↔ Lands P x c d := by
  rw [touched, List.mem_cons, List.mem_flatMap, ← mem_columnBuckets_iff hd]
  constructor
  · intro h
    rcases h with h | ⟨i, hi, hb⟩
    · -- the deterministic bucket lies behind all columns
      have hlt : (c + 1) * P.bktPerCol ≤ P.numColumns * P.bktPerCol := Nat.mul_le_mul_right _ hc
      rw [Nat.succ_mul] at hlt
      simp only [position, detBucket, Fin.val_last] at h
      omega
    · have hcol := mem_columnBuckets hb
      obtain rfl : i = c := by
        have h1 : i < c + 1 := by
          refine Nat.lt_of_mul_lt_mul_right (a := P.bktPerCol) (lt_of_le_of_lt hcol.1 ?_)
          rw [Nat.succ_mul]
          simp only [position]
          omega
        have h2 : c < i + 1 := by
          refine Nat.lt_of_mul_lt_mul_right (a := P.bktPerCol) (lt_of_le_of_lt ?_ hcol.2)
          simp only [position]
          omega
        omega
      exact hb
  · intro h
    exact .inr ⟨c, List.mem_range.2 hc, h⟩

/-- a bucket is the deterministic one or lies in a column -/
theorem det_or_column (b : Fin P.numBuckets) :
    b = detBucket P ∨ ∃ c d, ∃ (hc : c < P.numColumns) (hd : d < P.bktPerCol), b = position P hc hd := by
  by_cases hb : b.val < P.numColumns * P.bktPerCol
  · have hpos : 0 < P.bktPerCol := Nat.pos_of_ne_zero fun h => by simp [h] at hb
    refine .inr ⟨b / P.bktPerCol, b % P.bktPerCol, (Nat.div_lt_iff_lt_mul hpos).2 hb, Nat.mod_lt _ hpos, Fin.ext ?_⟩
    exact (Nat.div_add_mod' b.val P.bktPerCol).symm
  · refine .inl (Fin.ext ?_)
    have : b.val < P.numColumns * P.bktPerCol + 1 := b.isLt
    simp only [detBucket, Fin.val_last]
    omega

/-! ## Encodings -/

/-- the buckets of the sketch of the index set S -/
def encode (P : Params) (S : Finset (BitVec 64)) : Content P := ∑ x ∈ S, contrib P x

/-- these buckets are those of the index set S -/
structure Encodes (buckets : Content P) (S : Finset (BitVec 64)) : Prop where
  det : buckets (detBucket P) = ∑ x ∈ S, entry P x
  column : ∀ c d (hc : c < P.numColumns) (hd : d < P.bktPerCol),
    buckets (position P hc hd) = ∑ x ∈ S with Lands P x c d, entry P x

theorem encodes_encode (S : Finset (BitVec 64)) : Encodes (encode P S) S where
  det := by
    rw [encode, Finset.sum_apply]
    exact Finset.sum_congr rfl fun x _ => contrib_detBucket x
  column c d hc hd := by
    rw [encode, Finset.sum_apply, Finset.sum_filter]
    refine Finset.sum_congr rfl fun x _ => ?_
    rw [contrib]
    simp only [mem_touched_iff hc hd]
    rfl

/-- the buckets are a function of the index set -/
theorem encodes_iff {buckets : Content P} {S : Finset (BitVec 64)} : Encodes buckets S ↔ buckets = encode P S := by
  constructor
  · intro h
    funext b
    rcases det_or_column b with rfl | ⟨c, d, hc, hd, rfl⟩
    · rw [h.det, (encodes_encode S).det]
    · rw [h.column c d hc hd, (encodes_encode S).column c d hc hd]
  · intro h
    rw [h]
    exact encodes_encode S

theorem content_add_self (x : Content P) : x + x = 0 := funext fun b => Bucket.add_self (x b)

/-- occurrences of an index cancel in pairs -/
theorem sum_contrib_eq_encode (l : List (BitVec 64)) : (l.map (contrib P)).sum = encode P (oddSet l) :=
  sum_map_eq_sum_oddSet content_add_self _ l

theorem encode_add (A B : Finset (BitVec 64)) : encode P A + encode P B = encode P (A ∆ B) := by
  have hA : encode P A = encode P (A \ B) + encode P (A ∩ B) := by
    rw [encode, ← Finset.sum_sdiff (show A ∩ B ⊆ A from Finset.inter_subset_left), Finset.sdiff_inter_self_left]
    rfl
  have hB : encode P B = encode P (B \ A) + encode P (A ∩ B) := by
    rw [encode, ← Finset.sum_sdiff (show A ∩ B ⊆ B from Finset.inter_subset_right), Finset.sdiff_inter_self_right]
    rfl
  have hdisj : Disjoint (A \ B) (B \ A) := disjoint_sdiff_sdiff
  have hsymm : encode P (A ∆ B) = encode P (A \ B) + encode P (B \ A) := Finset.sum_union hdisj
  rw [hA, hB, hsymm, add_add_add_comm, content_add_self, add_zero]

end GraphStreamingCC.Sketch
