/-
What the samples of a sketch return (src/sketch.cpp: `sample`, `range_merge`).

Every bucket of a sketch of the index set S is the sum of a subset of S. If the hash gives no false checksum on the
subsets of S (`NoFalseChecksum`), a bucket is good exactly if its subset has one element, which it then holds
(`sum_isGood_iff`), and zero exactly if the subset is empty. `sampleAt_cases` is the outcome of one sample in these
terms; `sample_spec` adds what a call leaves, which columns it reads, and how many calls succeed.

`Acc` is a sketch accumulated by `range_merge` from others, directly or through further sketches that were accumulated
in the same way; its next sample is that of the full merge (`rangeMerge_sample`).
-/
import GraphStreamingCC.Sketch.Encode

namespace GraphStreamingCC.Sketch

variable {P : Params} {S : Finset (BitVec 64)} {s : Sketch P} {k : ℕ}

/-! ## Good buckets -/

/-- no subset of S but a single element passes the check, and none but the empty one adds up to nothing -/
def NoFalseChecksum (P : Params) (S : Finset (BitVec 64)) : Prop :=
  ∀ A ⊆ S, (A.card ≠ 1 → (∑ x ∈ A, entry P x).isGood P P.checksumSeed = false) ∧
    (A.Nonempty → ∑ x ∈ A, entry P x ≠ 0)

theorem entry_isGood (x : BitVec 64) : (entry P x).isGood P P.checksumSeed = true := beq_self_eq_true _

/-- the bucket of the set A is good only if A has one element, and zero only if it has none -/
def NoFalse (P : Params) (A : Finset (BitVec 64)) : Prop :=
  (A.card ≠ 1 → (∑ x ∈ A, entry P x).isGood P P.checksumSeed = false) ∧ (A.Nonempty → ∑ x ∈ A, entry P x ≠ 0)

theorem sum_isGood_iff {A : Finset (BitVec 64)} (hc : NoFalse P A) :
    (∑ x ∈ A, entry P x).isGood P P.checksumSeed = true ↔ A.card = 1 := by
  constructor
  · intro hgood
    by_contra hcard
    rw [hc.1 hcard] at hgood
    cases hgood
  · intro hcard
    obtain ⟨x, rfl⟩ := Finset.card_eq_one.1 hcard
    rw [Finset.sum_singleton]
    exact entry_isGood x

theorem sum_eq_zero_iff (hc : NoFalse P S) : ∑ x ∈ S, entry P x = 0 ↔ S = ∅ := by
  constructor
  · intro h0
    rw [← Finset.not_nonempty_iff_eq_empty]
    exact fun hne => hc.2 hne h0
  · intro h
    rw [h, Finset.sum_empty]

/-- what a good bucket holds -/
theorem sum_alpha_mem {A : Finset (BitVec 64)} (h : A.card = 1) : (∑ x ∈ A, entry P x).alpha ∈ A := by
  obtain ⟨x, rfl⟩ := Finset.card_eq_one.1 h
  rw [Finset.sum_singleton]
  exact Finset.mem_singleton_self x

/-! ## The columns of a sample -/

/-- the columns of sample number k -/
def columns (P : Params) (k : ℕ) : Finset ℕ := Finset.Ico (k * P.colsPerSample) ((k + 1) * P.colsPerSample)

theorem columns_disjoint {k' : ℕ} (h : k ≠ k') : Disjoint (columns P k) (columns P k') := by
  refine Finset.disjoint_left.2 fun c hc hc' => ?_
  rw [columns, Finset.mem_Ico] at hc hc'
  rcases Nat.lt_or_gt_of_ne h with hlt | hlt
  · have : (k + 1) * P.colsPerSample ≤ k' * P.colsPerSample := Nat.mul_le_mul_right _ hlt
    omega
  · have : (k' + 1) * P.colsPerSample ≤ k * P.colsPerSample := Nat.mul_le_mul_right _ hlt
    omega

theorem lt_numColumns (hk : k < P.numSamples) {c : ℕ} (hc : c ∈ columns P k) : c < P.numColumns := by
  have : (k + 1) * P.colsPerSample ≤ P.numSamples * P.colsPerSample := Nat.mul_le_mul_right _ hk
  exact lt_of_lt_of_le (Finset.mem_Ico.1 hc).2 this

/-- the buckets that sample number k scans -/
theorem mem_sampleBuckets (hk : k < P.numSamples) {b : Fin P.numBuckets} : b ∈ sampleBuckets P k ↔
    ∃ c d, ∃ (hc : c ∈ columns P k) (hd : d < P.bktPerCol), b = position P (lt_numColumns hk hc) hd := by
  simp only [sampleBuckets, List.mem_filterMap, List.mem_flatMap, List.mem_map, List.mem_range,
    Option.dite_none_right_eq_some, Option.some.injEq]
  constructor
  · intro h
    obtain ⟨id, ⟨i, hi, j, hj, hid⟩, hlt, hb⟩ := h
    have hc : i + k * P.colsPerSample ∈ columns P k := by
      rw [columns, Finset.mem_Ico, Nat.succ_mul]
      omega
    subst hid
    exact ⟨_, j, hc, hj, hb.symm⟩
  · intro h
    obtain ⟨c, d, hc, hd, hb⟩ := h
    have hw := Finset.mem_Ico.1 hc
    rw [Nat.succ_mul] at hw
    refine ⟨b.val, ⟨c - k * P.colsPerSample, by omega, d, hd, ?_⟩, b.isLt, rfl⟩
    rw [hb, Nat.sub_add_cancel hw.1]
    rfl

/-- some bucket of sample number k has exactly one element of S -/
def Isolated (P : Params) (S : Finset (BitVec 64)) (k : ℕ) : Prop :=
  ∃ c ∈ columns P k, ∃ d < P.bktPerCol, (S.filter fun x => Lands P x c d).card = 1

/-- no bucket of the sketch of S that sample number k looks at has a false checksum -/
def NoFalseSample (P : Params) (S : Finset (BitVec 64)) (k : ℕ) : Prop :=
  NoFalse P S ∧ ∀ c ∈ columns P k, ∀ d < P.bktPerCol, NoFalse P (S.filter fun x => Lands P x c d)

theorem NoFalseChecksum.sample (hc : NoFalseChecksum P S) (k : ℕ) : NoFalseSample P S k :=
  ⟨hc S subset_rfl, fun _ _ _ _ => hc _ (Finset.filter_subset _ S)⟩

/-! ## One sample -/

theorem sampleAt_zero (h : s.buckets (detBucket P) = 0) : s.sampleAt k = ⟨0, .zero⟩ := by
  simp only [sampleAt, h]
  rw [if_pos ⟨rfl, rfl⟩]

theorem sampleAt_nonzero (h : s.buckets (detBucket P) ≠ 0) : s.sampleAt k =
    if (s.buckets (detBucket P)).isGood P P.checksumSeed then ⟨(s.buckets (detBucket P)).alpha, .good⟩
    else match (sampleBuckets P k).find? fun b => (s.buckets b).isGood P P.checksumSeed with
      | some b => ⟨(s.buckets b).alpha, .good⟩
      | none => ⟨0, .fail⟩ := by
  have hne : ¬ ((s.buckets (detBucket P)).alpha = 0 ∧ (s.buckets (detBucket P)).gamma = 0) := by
    intro ⟨ha, hg⟩
    exact h (congrArg₂ Bucket.mk ha hg)
  exact if_neg hne

/-- **The outcome of a sample.** -/
theorem sampleAt_cases (hS : Encodes s.buckets S) (hc : NoFalseSample P S k) (hk : k < P.numSamples) :
    S = ∅ ∧ s.sampleAt k = ⟨0, .zero⟩ ∨
    S ≠ ∅ ∧ (S.card = 1 ∨ Isolated P S k) ∧ (∃ x ∈ S, s.sampleAt k = ⟨x, .good⟩) ∨
    S ≠ ∅ ∧ ¬ (S.card = 1 ∨ Isolated P S k) ∧ s.sampleAt k = ⟨0, .fail⟩ := by
  by_cases hempty : S = ∅
  · have h0 := hS.det.trans ((sum_eq_zero_iff hc.1).2 hempty)
    exact .inl ⟨hempty, sampleAt_zero h0⟩
  have hne : s.buckets (detBucket P) ≠ 0 := by
    rw [hS.det]
    exact fun h0 => hempty ((sum_eq_zero_iff hc.1).1 h0)
  have hgood : (s.buckets (detBucket P)).isGood P P.checksumSeed = true ↔ S.card = 1 := by
    rw [hS.det]
    exact sum_isGood_iff hc.1
  rw [sampleAt_nonzero hne]
  by_cases hcard : S.card = 1
  · -- the deterministic bucket holds the only element
    rw [if_pos (hgood.2 hcard)]
    refine .inr (.inl ⟨hempty, .inl hcard, _, ?_, rfl⟩)
    rw [hS.det]
    exact sum_alpha_mem hcard
  rw [if_neg (hgood.not.2 hcard)]
  cases hfind : (sampleBuckets P k).find? fun b => (s.buckets b).isGood P P.checksumSeed with
  | some b =>
    obtain ⟨c, d, hcol, hd, rfl⟩ := (mem_sampleBuckets hk).1 (List.mem_of_find?_eq_some hfind)
    have hb := List.find?_some hfind
    have hcol' := hS.column c d (lt_numColumns hk hcol) hd
    simp only [hcol'] at hb
    have hone := (sum_isGood_iff (hc.2 c hcol d hd)).1 hb
    refine .inr (.inl ⟨hempty, .inr ⟨c, hcol, d, hd, hone⟩, _, ?_, rfl⟩)
    rw [hcol']
    exact Finset.filter_subset _ S (sum_alpha_mem hone)
  | none =>
    refine .inr (.inr ⟨hempty, fun h => ?_, rfl⟩)
    obtain ⟨c, hcol, d, hd, hone⟩ := h.resolve_left hcard
    have hb := List.find?_eq_none.1 hfind _ ((mem_sampleBuckets hk).2 ⟨c, d, hcol, hd, rfl⟩)
    rw [hS.column c d (lt_numColumns hk hcol) hd] at hb
    exact hb ((sum_isGood_iff (hc.2 c hcol d hd)).2 hone)

/-- the columns of sample number k and the deterministic bucket are all that it reads -/
theorem sampleAt_congr {s' : Sketch P} (hk : k < P.numSamples)
    (hdet : s'.buckets (detBucket P) = s.buckets (detBucket P))
    (hcol : ∀ c d (hc : c ∈ columns P k) (hd : d < P.bktPerCol),
      s'.buckets (position P (lt_numColumns hk hc) hd) = s.buckets (position P (lt_numColumns hk hc) hd)) :
    s'.sampleAt k = s.sampleAt k := by
  have hscan : ∀ b ∈ sampleBuckets P k, s'.buckets b = s.buckets b := by
    intro b hb
    obtain ⟨c, d, hc, hd, rfl⟩ := (mem_sampleBuckets hk).1 hb
    exact hcol c d hc hd
  have hfind : (sampleBuckets P k).find? (fun b => (s'.buckets b).isGood P P.checksumSeed) =
      (sampleBuckets P k).find? fun b => (s.buckets b).isGood P P.checksumSeed :=
    List.find?_congr fun b hb => by rw [hscan b hb]
  by_cases h0 : s.buckets (detBucket P) = 0
  · rw [sampleAt_zero h0, sampleAt_zero (hdet.trans h0)]
  · rw [sampleAt_nonzero h0, sampleAt_nonzero (by rwa [hdet]), hdet, hfind]
    cases hf : (sampleBuckets P k).find? fun b => (s.buckets b).isGood P P.checksumSeed with
    | none => rfl
    | some b => simp only [hscan b (List.mem_of_find?_eq_some hf)]

/-! ## Calls -/

/-- a call of `sample`: the sketch behind it, and what it returns or throws -/
def sampleCall (s : Sketch P) : Sketch P × Except OutOfSamplesException SketchSample :=
  match s.sample with
  | .error e => (s, .error e)
  | .ok (s', smp) => (s', .ok smp)

theorem sampleCall_ok (hk : s.sampleIdx < P.numSamples) :
    s.sampleCall = ({ s with sampleIdx := s.sampleIdx + 1 }, .ok (s.sampleAt s.sampleIdx)) := by
  simp only [sampleCall, sample, if_neg (not_le.2 hk)]

theorem sampleCall_error (hk : P.numSamples ≤ s.sampleIdx) :
    s.sampleCall = (s, .error ⟨P.seed, P.numSamples, s.sampleIdx⟩) := by
  simp only [sampleCall, sample, if_pos hk]

/-- the sketch after m calls -/
def afterCalls (m : ℕ) (s : Sketch P) : Sketch P := (fun s => s.sampleCall.1)^[m] s

theorem afterCalls_eq (hs : s.sampleIdx ≤ P.numSamples) (m : ℕ) :
    afterCalls m s = { s with sampleIdx := min (s.sampleIdx + m) P.numSamples } := by
  induction m with
  | zero => exact Sketch.ext (min_eq_left hs).symm rfl
  | succ m ih =>
    rw [afterCalls, Function.iterate_succ_apply', ← afterCalls, ih]
    by_cases hlt : s.sampleIdx + m < P.numSamples
    · rw [min_eq_left hlt.le, sampleCall_ok (by exact hlt), min_eq_left (by omega)]
      rfl
    · rw [min_eq_right (not_lt.1 hlt), sampleCall_error (by exact le_rfl), min_eq_right (by omega)]

/-- **Sampling is sound and complete for isolated indices.** Let the buckets be those of the index set S, without a false
checksum on the subsets of S. A call returns ZERO if and only if S is empty, GOOD if and only if S has one element or some
bucket of the sample's columns has one, always with an element of S, and FAIL otherwise. It changes the sample index only,
and reads no other columns but the deterministic bucket. Calls succeed as long as the sample index is below the number of
samples, each with its own columns; from then on they throw and change nothing. -/
theorem sample_spec (hS : Encodes s.buckets S) (hc : NoFalseChecksum P S) (hk : s.sampleIdx < P.numSamples) :
    (∃ smp, s.sampleCall = ({ s with sampleIdx := s.sampleIdx + 1 }, .ok smp) ∧
      (smp.result = .zero ↔ S = ∅) ∧
      (smp.result = .good ↔ S.card = 1 ∨ Isolated P S s.sampleIdx) ∧
      (smp.result = .fail ↔ S ≠ ∅ ∧ ¬ (S.card = 1 ∨ Isolated P S s.sampleIdx)) ∧
      (smp.result = .good → smp.idx ∈ S)) ∧
    (∀ s' : Sketch P, s'.sampleIdx = s.sampleIdx → s'.buckets (detBucket P) = s.buckets (detBucket P) →
      (∀ c d (hcol : c ∈ columns P s.sampleIdx) (hd : d < P.bktPerCol),
        s'.buckets (position P (lt_numColumns hk hcol) hd) = s.buckets (position P (lt_numColumns hk hcol) hd)) →
      s'.sampleCall.2 = s.sampleCall.2) ∧
    (∀ k k', k ≠ k' → Disjoint (columns P k) (columns P k')) ∧
    ∀ m, (afterCalls m s).buckets = s.buckets ∧
      if s.sampleIdx + m < P.numSamples then
        (afterCalls m s).sampleIdx = s.sampleIdx + m ∧ ∃ smp, (afterCalls m s).sampleCall.2 = .ok smp
      else (afterCalls m s).sampleCall = (afterCalls m s, .error ⟨P.seed, P.numSamples, P.numSamples⟩) := by
  refine ⟨⟨s.sampleAt s.sampleIdx, sampleCall_ok hk, ?_⟩, ?_, fun _ _ => columns_disjoint, fun m => ?_⟩
  · have hiso : S = ∅ → ¬ (S.card = 1 ∨ Isolated P S s.sampleIdx) := by
      rintro rfl (h | ⟨c, -, d, -, h⟩) <;> simp at h
    rcases sampleAt_cases hS (hc.sample s.sampleIdx) hk with ⟨h, he⟩ | ⟨h, hi, x, hx, he⟩ | ⟨h, hi, he⟩
    · rw [he]
      exact ⟨iff_of_true rfl h, iff_of_false (by simp) (hiso h), iff_of_false (by simp) fun hf => hf.1 h, by simp⟩
    · simp [he, h, hi, hx]
    · simp [he, h, hi]
  · intro s' hidx hdet hcol
    rw [sampleCall_ok hk, sampleCall_ok (hidx ▸ hk), hidx]
    exact congrArg Except.ok (sampleAt_congr hk hdet hcol)
  · rw [afterCalls_eq hk.le]
    refine ⟨rfl, ?_⟩
    split_ifs with hlt
    · rw [min_eq_left hlt.le]
      exact ⟨rfl, _, congrArg Prod.snd (sampleCall_ok (by exact hlt))⟩
    · rw [min_eq_right (not_lt.1 hlt)]
      exact sampleCall_error le_rfl

/-- two samples of one column with four buckets; index 1 has depth 3 in column 0, index 2 has depth 0 -/
def twoSamples : Params := ⟨fun x seed => x * x + 7 + seed, 0, 2, 1, 4, false⟩

theorem twoSamples_noFalseChecksum : NoFalseChecksum twoSamples {1, 2} := by
  unfold NoFalseChecksum
  decide +kernel

theorem sample_spec_two : ∃ smp, (((empty twoSamples).update 1).update 2).sampleCall.2 = .ok smp ∧
    smp.result = .good ∧ smp.idx ∈ ({1, 2} : Finset (BitVec 64)) := by
  have hS : Encodes (((empty twoSamples).update 1).update 2).buckets {1, 2} := by
    rw [encodes_iff, update_buckets, update_buckets, empty_buckets, zero_add, encode, Finset.sum_pair (by decide)]
  obtain ⟨⟨smp, hcall, -, hgood, -, hmem⟩, -⟩ := sample_spec hS twoSamples_noFalseChecksum (by decide)
  have hres := hgood.2 (.inr ⟨0, by decide, 0, by decide, by decide +kernel⟩)
  exact ⟨smp, congrArg Prod.snd hcall, hres, hmem hres⟩

/-! ## Accumulated sketches -/

/-- a sketch accumulated in one round: any scratch sketch is zeroed, and then sketches are range-merged into it, given
ones or accumulated ones -/
inductive Acc (P : Params) where
  | zeroed (scratch : Sketch P)
  | add (acc : Acc P) (other : Sketch P)
  | addGroup (acc group : Acc P)

namespace Acc

def value (r : ℕ) : Acc P → Sketch P
  | .zeroed scratch => scratch.zeroContents
  | .add acc other => (acc.value r).rangeMerge other r 1
  | .addGroup acc group => (acc.value r).rangeMerge (group.value r) r 1

/-- all the given sketches -/
def sketches : Acc P → List (Sketch P)
  | .zeroed _ => []
  | .add acc other => acc.sketches ++ [other]
  | .addGroup acc group => acc.sketches ++ group.sketches

variable {r : ℕ}

theorem value_buckets (hr : r < P.numSamples) {b : Fin P.numBuckets} (hb : InWindow P r b) (acc : Acc P) :
    (acc.value r).buckets b = (acc.sketches.map fun s => s.buckets b).sum := by
  induction acc with
  | zeroed scratch => rfl
  | add acc other ih =>
    rw [value, rangeMerge_buckets _ _ hr hb, ih, sketches, List.map_append, List.sum_append]
    simp
  | addGroup acc group ih ihg =>
    rw [value, rangeMerge_buckets _ _ hr hb, ih, ihg, sketches, List.map_append, List.sum_append]

theorem value_sampleIdx_le (hr : r < P.numSamples) (acc : Acc P) : (acc.value r).sampleIdx ≤ r := by
  induction acc with
  | zeroed scratch => exact Nat.zero_le r
  | add acc other ih => rw [value, rangeMerge_sampleIdx _ _ hr, max_eq_right ih]
  | addGroup acc group ih _ => rw [value, rangeMerge_sampleIdx _ _ hr, max_eq_right ih]

theorem value_sampleIdx (hr : r < P.numSamples) {acc : Acc P} (h : acc.sketches ≠ []) : (acc.value r).sampleIdx = r := by
  cases acc with
  | zeroed scratch => exact absurd rfl h
  | add acc other => rw [value, rangeMerge_sampleIdx _ _ hr, max_eq_right (acc.value_sampleIdx_le hr)]
  | addGroup acc group => rw [value, rangeMerge_sampleIdx _ _ hr, max_eq_right (acc.value_sampleIdx_le hr)]

end Acc

/-- the sketches of a list merged completely -/
def mergeAll (l : List (Sketch P)) : Sketch P := l.foldl merge (empty P)

theorem mergeAll_buckets (l : List (Sketch P)) (b : Fin P.numBuckets) :
    (mergeAll l).buckets b = (l.map fun s => s.buckets b).sum := by
  have hfold : ∀ s : Sketch P, (l.foldl merge s).buckets b = s.buckets b + (l.map fun s => s.buckets b).sum := by
    induction l with
    | nil => simp
    | cons o l ih =>
      intro s
      rw [List.foldl_cons, ih, merge_buckets, Pi.add_apply, List.map_cons, List.sum_cons, add_assoc]
  rw [mergeAll, hfold]
  exact zero_add _

/-- the columns of sample number r lie in the window that a range merge merges -/
theorem inWindow_position {r c d : ℕ} (hr : r < P.numSamples) (hc : c ∈ columns P r) (hd : d < P.bktPerCol) :
    InWindow P r (position P (lt_numColumns hr hc) hd) := by
  have hw := Finset.mem_Ico.1 hc
  have hlow : r * P.colsPerSample * P.bktPerCol ≤ c * P.bktPerCol := Nat.mul_le_mul_right _ hw.1
  have hhigh : (c + 1) * P.bktPerCol ≤ (r + 1) * P.colsPerSample * P.bktPerCol := Nat.mul_le_mul_right _ hw.2
  rw [Nat.succ_mul] at hhigh
  refine .inr ⟨?_, ?_⟩ <;> simp only [position] <;> omega

/-- sample number r reads nothing outside of the window -/
theorem sampleAt_window {s s' : Sketch P} {r : ℕ} (hr : r < P.numSamples)
    (h : ∀ b, InWindow P r b → s'.buckets b = s.buckets b) : s'.sampleAt r = s.sampleAt r :=
  sampleAt_congr hr (h _ (.inl rfl)) fun _ _ hc hd => h _ (inWindow_position hr hc hd)

/-- **Range merging gives the sample of the full merge**, however the sketches were grouped. -/
theorem rangeMerge_sample {r : ℕ} (hr : r < P.numSamples) {acc : Acc P} (h : acc.sketches ≠ []) :
    (acc.value r).sampleCall.2 = ({ mergeAll acc.sketches with sampleIdx := r } : Sketch P).sampleCall.2 ∧
      ∃ smp, (acc.value r).sampleCall.2 = .ok smp := by
  have hidx := acc.value_sampleIdx hr h
  have hlt : (acc.value r).sampleIdx < P.numSamples := by rw [hidx]; exact hr
  rw [sampleCall_ok hlt, sampleCall_ok (by exact hr), hidx]
  refine ⟨congrArg Except.ok (sampleAt_window hr fun b hb => ?_), _, rfl⟩
  exact (acc.value_buckets hr hb).trans (mergeAll_buckets _ _).symm

/-- two sketches accumulated locally in a used scratch sketch, which is then merged into a global one -/
theorem rangeMerge_sample_two :
    ((Acc.addGroup (.zeroed (empty twoSamples)) (.add (.add (.zeroed ((empty twoSamples).update 3))
      ((empty twoSamples).update 1)) ((empty twoSamples).update 2))).value 1).sampleCall.2 =
      ({ mergeAll [(empty twoSamples).update 1, (empty twoSamples).update 2] with sampleIdx := 1 } :
        Sketch twoSamples).sampleCall.2 :=
  (@rangeMerge_sample twoSamples 1 (by decide) (.addGroup (.zeroed (empty twoSamples)) (.add (.add (.zeroed
    ((empty twoSamples).update 3)) ((empty twoSamples).update 1)) ((empty twoSamples).update 2))) (by simp [Acc.sketches])).1

end GraphStreamingCC.Sketch
