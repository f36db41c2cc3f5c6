/-
The bucket ids that the operations of a sketch access (src/sketch.cpp), and the shift of `get_index_depth`
(include/bucket.h).

The sizes and the ids are computed in `size_t`, so modulo 2 ^ 64. `ids_in_range_iff`: for a sketch of the vertices of a
graph, the shift is by less than 64 bits, the depth is the number of trailing zeros capped at `bkt_per_col`, and every
id is below `num_buckets`, if and only if the vector length is at most 2 ^ 62 and the number of buckets fits into a
`size_t`. The sizes that `calc_bkt_per_col` gives to graphs of 3037000501 vertices and more are 64, one too many
(`shift_out_of_range`).
-/
import Mathlib.Data.Nat.Log
import GraphStreamingCC.Sketch.Model

namespace GraphStreamingCC

namespace Sketch

/-- `ceil(double(num_vertices) * (num_vertices - 1) / 2)`, taken exactly -/
def calcVectorLength (numVertices : ℕ) : ℕ := numVertices * (numVertices - 1) / 2

/-- `ceil(log2(n)) + 1`, taken exactly -/
def calcBktPerCol (n : ℕ) : ℕ := Nat.clog 2 n + 1

end Sketch

/-! ## Ids in `size_t` -/

/-- the value of a `size_t` expression -/
def sizeT (x : ℕ) : ℕ := x % 2 ^ 64

theorem sizeT_of_lt {x : ℕ} (h : x < 2 ^ 64) : sizeT x = x := Nat.mod_eq_of_lt h

namespace Params

/-- `num_columns` -/
def columnCount (P : Params) : ℕ := sizeT (P.numSamples * P.colsPerSample)

/-- `num_buckets` -/
def bucketCount (P : Params) : ℕ := sizeT (P.columnCount * P.bktPerCol + 1)

/-- `num_buckets - 1` -/
def detId (P : Params) : ℕ := sizeT (P.bucketCount + (2 ^ 64 - 1))

/-- the ids that `update` accesses; its loop variable i is `unsigned`, so it is never 2 ^ 32 or more -/
def updateIds (P : Params) (updateIdx : BitVec 64) : List ℕ :=
  P.detId :: (List.range (min P.columnCount (2 ^ 32))).flatMap fun i =>
    let depth := Bucket.getIndexDepth P updateIdx (P.columnSeed i) P.bktPerCol
    if depth < P.bktPerCol then
      if P.l0Sampling then (List.range (depth + 1)).map fun j => sizeT (i * P.bktPerCol + j)
      else [sizeT (i * P.bktPerCol + depth)]
    else []

/-- the ids that sample number `idx` accesses, of `sample` if no bucket is good, and of `exhaustive_sample` -/
def sampleIds (P : Params) (idx : ℕ) : List ℕ :=
  P.detId :: (List.range P.colsPerSample).flatMap fun i =>
    (List.range P.bktPerCol).map fun j => sizeT ((i + sizeT (idx * P.colsPerSample)) * P.bktPerCol + j)

/-- the ids that `range_merge` accesses, of both sketches -/
def rangeMergeIds (P : Params) (startSample nSamples : ℕ) : List ℕ :=
  P.detId :: (List.range (sizeT (nSamples * P.colsPerSample * P.bktPerCol))).map fun i =>
    sizeT (sizeT (startSample * P.colsPerSample * P.bktPerCol) + i)

/-- the shift and the ids are in range, and the depth is as documented -/
structure InBounds (P : Params) : Prop where
  shift : P.bktPerCol < 64
  depth : ∀ updateIdx seed, Bucket.getIndexDepth P updateIdx seed P.bktPerCol =
    min (Bucket.ctz (P.xxh3 updateIdx seed)) P.bktPerCol
  update : ∀ updateIdx, ∀ b ∈ P.updateIds updateIdx, b < P.bucketCount
  sample : ∀ idx < P.numSamples, ∀ b ∈ P.sampleIds idx, b < P.bucketCount
  rangeMerge : ∀ startSample nSamples, startSample + nSamples ≤ P.numSamples →
    ∀ b ∈ P.rangeMergeIds startSample nSamples, b < P.bucketCount

end Params

/-! ## The depth -/

namespace Bucket

theorem ctz_lt_iff {x : BitVec 64} {k : ℕ} (hk : k ≤ 64) : ctz x < k ↔ ∃ j < k, x.getLsbD j = true := by
  unfold ctz
  cases hfind : (List.range 64).find? fun j => x.getLsbD j with
  | none =>
    rw [List.find?_eq_none] at hfind
    refine iff_of_false (not_lt.2 hk) fun h => ?_
    obtain ⟨j, hj, hx⟩ := h
    exact hfind j (List.mem_range.2 (by omega)) hx
  | some i =>
    have hi := List.find?_range_eq_some.1 hfind
    constructor
    · intro h
      exact ⟨i, h, hi.1⟩
    · intro h
      obtain ⟨j, hj, hx⟩ := h
      by_contra hle
      have := hi.2.2 j (lt_of_lt_of_le hj (not_lt.1 hle))
      rw [hx] at this
      cases this

theorem ctz_le (x : BitVec 64) : ctz x ≤ 64 := by
  unfold ctz
  cases hfind : (List.range 64).find? fun j => x.getLsbD j with
  | none => exact le_rfl
  | some i => exact (List.mem_range.1 (List.mem_of_find?_eq_some hfind)).le

/-- the sentinel bit caps the trailing zeros -/
theorem ctz_or_shiftLeft (x : BitVec 64) {m : ℕ} (hm : m < 64) : ctz (x ||| 1#64 <<< m) = min (ctz x) m := by
  have hbit : ∀ j < 64, (x ||| 1#64 <<< m).getLsbD j = true ↔ x.getLsbD j = true ∨ j = m := by
    intro j hj
    rw [BitVec.getLsbD_or, BitVec.getLsbD_shiftLeft, BitVec.getLsbD_one]
    simp only [Bool.or_eq_true, Bool.and_eq_true, Bool.not_eq_true', decide_eq_true_eq, decide_eq_false_iff_not]
    apply or_congr_right
    omega
  refine eq_of_forall_gt_iff fun k => ?_
  by_cases hk : k ≤ 64
  · rw [min_lt_iff, ctz_lt_iff hk, ctz_lt_iff hk]
    constructor
    · intro h
      obtain ⟨j, hj, hx⟩ := h
      rcases (hbit j (by omega)).1 hx with hx | rfl
      · exact .inl ⟨j, hj, hx⟩
      · exact .inr hj
    · intro h
      rcases h with ⟨j, hj, hx⟩ | hmk
      · exact ⟨j, hj, (hbit j (by omega)).2 (.inl hx)⟩
      · exact ⟨m, hmk, (hbit m hm).2 (.inr rfl)⟩
  · have h1 := ctz_le (x ||| 1#64 <<< m)
    exact iff_of_true (by omega) (by omega)

end Bucket

/-! ## The bounds -/

namespace Params

variable {P : Params}

/-- the three sizes, as long as the number of buckets fits -/
theorem counts_of_lt (hpos : 0 < P.bktPerCol) (h : P.numSamples * P.colsPerSample * P.bktPerCol + 1 < 2 ^ 64) :
    P.columnCount = P.numSamples * P.colsPerSample ∧
      P.bucketCount = P.numSamples * P.colsPerSample * P.bktPerCol + 1 ∧
      P.detId = P.numSamples * P.colsPerSample * P.bktPerCol := by
  have hle : P.numSamples * P.colsPerSample ≤ P.numSamples * P.colsPerSample * P.bktPerCol := Nat.le_mul_of_pos_right _ hpos
  have hcolumns : P.columnCount = P.numSamples * P.colsPerSample := sizeT_of_lt (by omega)
  have hbuckets : P.bucketCount = P.numSamples * P.colsPerSample * P.bktPerCol + 1 := by
    rw [bucketCount, hcolumns]
    exact sizeT_of_lt h
  refine ⟨hcolumns, hbuckets, ?_⟩
  rw [detId, hbuckets, sizeT]
  omega

/-- bucket d of column c lies in front of the deterministic one -/
theorem id_lt {c d : ℕ} (hc : c < P.numSamples * P.colsPerSample) (hd : d < P.bktPerCol) :
    c * P.bktPerCol + d < P.numSamples * P.colsPerSample * P.bktPerCol := by
  calc c * P.bktPerCol + d < (c + 1) * P.bktPerCol := by rw [Nat.succ_mul]; omega
    _ ≤ P.numSamples * P.colsPerSample * P.bktPerCol := Nat.mul_le_mul_right _ hc

/-- an id that does not overflow and lies in front of the deterministic bucket -/
theorem sizeT_lt_bucketCount (hpos : 0 < P.bktPerCol) (h : P.numSamples * P.colsPerSample * P.bktPerCol + 1 < 2 ^ 64) {b : ℕ}
    (hb : b < P.numSamples * P.colsPerSample * P.bktPerCol) : sizeT b < P.bucketCount := by
  rw [(counts_of_lt hpos h).2.1, sizeT_of_lt (by omega)]
  omega

theorem detId_lt (hpos : 0 < P.bktPerCol) (h : P.numSamples * P.colsPerSample * P.bktPerCol + 1 < 2 ^ 64) :
    P.detId < P.bucketCount := by
  obtain ⟨-, hbuckets, hdet⟩ := counts_of_lt hpos h
  omega

theorem updateIds_lt (hpos : 0 < P.bktPerCol) (h : P.numSamples * P.colsPerSample * P.bktPerCol + 1 < 2 ^ 64)
    (updateIdx : BitVec 64) {b : ℕ} (hb : b ∈ P.updateIds updateIdx) : b < P.bucketCount := by
  obtain ⟨hcolumns, -, -⟩ := counts_of_lt hpos h
  rw [updateIds, List.mem_cons] at hb
  rcases hb with hb | hb
  · rw [hb]
    exact detId_lt hpos h
  obtain ⟨i, hi, hb⟩ := List.mem_flatMap.1 hb
  have hi : i < P.numSamples * P.colsPerSample := hcolumns ▸ (lt_min_iff.1 (List.mem_range.1 hi)).1
  simp only at hb
  split_ifs at hb with hdepth hl0
  · obtain ⟨j, hj, rfl⟩ := List.mem_map.1 hb
    have := List.mem_range.1 hj
    exact sizeT_lt_bucketCount hpos h (id_lt hi (by omega))
  · rw [List.mem_singleton.1 hb]
    exact sizeT_lt_bucketCount hpos h (id_lt hi hdepth)
  · cases hb

theorem sampleIds_lt (hpos : 0 < P.bktPerCol) (h : P.numSamples * P.colsPerSample * P.bktPerCol + 1 < 2 ^ 64) {idx : ℕ}
    (hidx : idx < P.numSamples) {b : ℕ} (hb : b ∈ P.sampleIds idx) : b < P.bucketCount := by
  rw [sampleIds, List.mem_cons] at hb
  rcases hb with hb | hb
  · rw [hb]
    exact detId_lt hpos h
  obtain ⟨i, hi, hb⟩ := List.mem_flatMap.1 hb
  obtain ⟨j, hj, rfl⟩ := List.mem_map.1 hb
  have hcolumn : i + idx * P.colsPerSample < P.numSamples * P.colsPerSample := by
    have := List.mem_range.1 hi
    calc i + idx * P.colsPerSample < (idx + 1) * P.colsPerSample := by rw [Nat.succ_mul]; omega
      _ ≤ P.numSamples * P.colsPerSample := Nat.mul_le_mul_right _ hidx
  have hle : P.numSamples * P.colsPerSample ≤ P.numSamples * P.colsPerSample * P.bktPerCol := Nat.le_mul_of_pos_right _ hpos
  rw [sizeT_of_lt (show idx * P.colsPerSample < 2 ^ 64 by omega)]
  exact sizeT_lt_bucketCount hpos h (id_lt hcolumn (List.mem_range.1 hj))

theorem rangeMergeIds_lt (hpos : 0 < P.bktPerCol) (h : P.numSamples * P.colsPerSample * P.bktPerCol + 1 < 2 ^ 64)
    {startSample nSamples : ℕ} (hn : startSample + nSamples ≤ P.numSamples) {b : ℕ}
    (hb : b ∈ P.rangeMergeIds startSample nSamples) : b < P.bucketCount := by
  rw [rangeMergeIds, List.mem_cons] at hb
  rcases hb with hb | hb
  · rw [hb]
    exact detId_lt hpos h
  obtain ⟨i, hi, rfl⟩ := List.mem_map.1 hb
  have hsum : startSample * P.colsPerSample * P.bktPerCol + nSamples * P.colsPerSample * P.bktPerCol ≤
      P.numSamples * P.colsPerSample * P.bktPerCol := by
    rw [← Nat.add_mul, ← Nat.add_mul]
    exact Nat.mul_le_mul_right _ (Nat.mul_le_mul_right _ hn)
  have hi := List.mem_range.1 hi
  rw [sizeT_of_lt (show nSamples * P.colsPerSample * P.bktPerCol < 2 ^ 64 by omega)] at hi
  rw [sizeT_of_lt (show startSample * P.colsPerSample * P.bktPerCol < 2 ^ 64 by omega)]
  exact sizeT_lt_bucketCount hpos h (by omega)

/-- if the number of buckets does not fit, some sample accesses the last id of all, or there is no bucket at all -/
theorem overflow (hpos : 0 < P.bktPerCol) (hcols : 0 < P.colsPerSample)
    (h : 2 ^ 64 ≤ P.numSamples * P.colsPerSample * P.bktPerCol + 1) :
    ∃ b, (b = P.detId ∨ ∃ idx < P.numSamples, b ∈ P.sampleIds idx) ∧ P.bucketCount ≤ b := by
  have hcount : P.bucketCount = (P.numSamples * P.colsPerSample * P.bktPerCol + 1) % 2 ^ 64 := by
    rw [bucketCount, columnCount, sizeT, sizeT, Nat.add_mod, Nat.mod_mul_mod, ← Nat.add_mod]
  rcases Nat.eq_or_lt_of_le h with heq | hlt
  · refine ⟨P.detId, .inl rfl, ?_⟩
    rw [hcount, ← heq, Nat.mod_self]
    exact Nat.zero_le _
  · -- the place of this id in the scan
    have hrow : 0 < P.colsPerSample * P.bktPerCol := Nat.mul_pos hcols hpos
    refine ⟨2 ^ 64 - 1, .inr ⟨(2 ^ 64 - 1) / (P.colsPerSample * P.bktPerCol), ?_, List.mem_cons_of_mem _ ?_⟩, ?_⟩
    · rw [Nat.div_lt_iff_lt_mul hrow, ← Nat.mul_assoc]
      omega
    · refine List.mem_flatMap.2 ⟨(2 ^ 64 - 1) % (P.colsPerSample * P.bktPerCol) / P.bktPerCol, List.mem_range.2 ?_,
        List.mem_map.2 ⟨(2 ^ 64 - 1) % P.bktPerCol, List.mem_range.2 (Nat.mod_lt _ hpos), ?_⟩⟩
      · rw [Nat.div_lt_iff_lt_mul hpos]
        exact Nat.mod_lt _ hrow
      · generalize hm : 2 ^ 64 - 1 = m
        have hsplit : (m % (P.colsPerSample * P.bktPerCol) / P.bktPerCol + m / (P.colsPerSample * P.bktPerCol) * P.colsPerSample) *
            P.bktPerCol + m % P.bktPerCol = m := by
          have h1 := Nat.div_add_mod m (P.colsPerSample * P.bktPerCol)
          have h2 := Nat.div_add_mod (m % (P.colsPerSample * P.bktPerCol)) P.bktPerCol
          rw [Nat.mod_mul_left_mod] at h2
          calc _ = P.colsPerSample * P.bktPerCol * (m / (P.colsPerSample * P.bktPerCol)) +
                (P.bktPerCol * (m % (P.colsPerSample * P.bktPerCol) / P.bktPerCol) + m % P.bktPerCol) := by ring
            _ = m := by rw [h2, h1]
        have hle : m / (P.colsPerSample * P.bktPerCol) * P.colsPerSample ≤ m := by
          calc _ ≤ m / (P.colsPerSample * P.bktPerCol) * (P.colsPerSample * P.bktPerCol) :=
                Nat.mul_le_mul_left _ (Nat.le_mul_of_pos_right _ hpos)
            _ ≤ m := Nat.div_mul_le_self _ _
        have hfirst : sizeT (m / (P.colsPerSample * P.bktPerCol) * P.colsPerSample) =
            m / (P.colsPerSample * P.bktPerCol) * P.colsPerSample := sizeT_of_lt (by omega)
        rw [hfirst, hsplit]
        exact sizeT_of_lt (by omega)
    · have := Nat.mod_lt (P.numSamples * P.colsPerSample * P.bktPerCol + 1) (show 0 < 2 ^ 64 by norm_num)
      omega

/-- **In bounds.** For a sketch of the vertices of a graph, with any hash function, any number of samples and at least
one column for each: the shift and all ids are in range and the depth is as documented if and only if the vector length
is at most 2 ^ 62 and the number of buckets fits into a `size_t`. -/
theorem ids_in_range_iff {n : ℕ} (hcols : 1 ≤ P.colsPerSample)
    (hbkt : P.bktPerCol = Sketch.calcBktPerCol (Sketch.calcVectorLength n)) :
    P.InBounds ↔ Sketch.calcVectorLength n ≤ 2 ^ 62 ∧ P.numSamples * P.colsPerSample * P.bktPerCol + 1 < 2 ^ 64 := by
  have hpos : 0 < P.bktPerCol := hbkt ▸ Nat.succ_pos _
  have hshift : P.bktPerCol < 64 ↔ Sketch.calcVectorLength n ≤ 2 ^ 62 := by
    rw [hbkt, Sketch.calcBktPerCol, ← Nat.clog_le_iff_le_pow Nat.one_lt_two]
    omega
  constructor
  · intro h
    refine ⟨hshift.1 h.shift, ?_⟩
    by_contra hlt
    obtain ⟨b, hb, hle⟩ := overflow hpos hcols (not_lt.1 hlt)
    rcases hb with hb | ⟨idx, hidx, hb⟩
    · have hmem : b ∈ P.updateIds 0 := by
        rw [updateIds, hb]
        exact List.mem_cons_self
      exact absurd (h.update 0 b hmem) (not_lt.2 hle)
    · exact absurd (h.sample idx hidx b hb) (not_lt.2 hle)
  · intro h
    obtain ⟨hlength, hfit⟩ := h
    refine ⟨hshift.2 hlength, fun updateIdx seed => Bucket.ctz_or_shiftLeft _ (hshift.2 hlength), ?_, ?_, ?_⟩
    · exact fun updateIdx b hb => updateIds_lt hpos hfit updateIdx hb
    · exact fun idx hidx b hb => sampleIds_lt hpos hfit hidx hb
    · exact fun startSample nSamples hn b hb => rangeMergeIds_lt hpos hfit hn hb

/-- the sketch of 1024 vertices, with 18 samples of one column -/
theorem ids_in_range_iff_thousand : InBounds ⟨fun x seed => x + seed, 0, 18, 1, 20, false⟩ :=
  (ids_in_range_iff le_rfl (show 20 = Sketch.calcBktPerCol (Sketch.calcVectorLength 1024) by decide +kernel)).2
    ⟨by decide, by decide⟩

/-- **One bit too many.** The largest graphs have 64 buckets in a column, which is the shift. -/
theorem shift_out_of_range : Sketch.calcBktPerCol (Sketch.calcVectorLength 3037000501) = 64 ∧
    ∀ xxh3 seed numSamples colsPerSample l0Sampling,
      ¬ InBounds ⟨xxh3, seed, numSamples, colsPerSample,
        Sketch.calcBktPerCol (Sketch.calcVectorLength 3037000501), l0Sampling⟩ := by
  have hclog : Sketch.calcBktPerCol (Sketch.calcVectorLength 3037000501) = 64 := by decide +kernel
  refine ⟨hclog, fun xxh3 seed numSamples colsPerSample l0Sampling h => ?_⟩
  have := h.shift
  simp only [hclog] at this
  omega

end Params

end GraphStreamingCC
