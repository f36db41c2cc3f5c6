/-
The two ways to query a sketch (src/sketch.cpp: `sample`, `exhaustive_sample`).

Both look at the deterministic bucket first and then at the columns of the current sample; `sample` stops at the first
good bucket, `exhaustive_sample` collects the indices of all of them. `samples_agree`: they throw together, give the
same result code, leave the same sketch, and the one index is among the collected ones. For the sketch of an index set
without a false checksum the collected indices are the ones that are alone in some bucket.
-/
import GraphStreamingCC.Sketch.Sampling

namespace GraphStreamingCC

structure ExhaustiveSketchSample where
  idxs : Finset (BitVec 64)
  result : SampleResult
deriving DecidableEq

namespace Sketch

variable {P : Params} {S : Finset (BitVec 64)} {s : Sketch P} {k : ℕ}

/-- one bucket in the loops of `exhaustive_sample`: if it is good, its index is inserted into `ret` -/
def collect (s : Sketch P) (ret : Finset (BitVec 64)) (bucketId : Fin P.numBuckets) : Finset (BitVec 64) :=
  if (s.buckets bucketId).isGood P P.checksumSeed then insert (s.buckets bucketId).alpha ret else ret

/-- what exhaustive sample number `idx` returns -/
def exhaustiveSampleAt (s : Sketch P) (idx : ℕ) : ExhaustiveSketchSample :=
  let det := s.buckets (detBucket P)
  if det.alpha = 0 ∧ det.gamma = 0 then ⟨∅, .zero⟩
  else if det.isGood P P.checksumSeed then ⟨insert det.alpha ∅, .good⟩
  else
    let ret := (sampleBuckets P idx).foldl s.collect ∅
    if ret.card = 0 then ⟨ret, .fail⟩ else ⟨ret, .good⟩

def exhaustiveSample (s : Sketch P) : Except OutOfSamplesException (Sketch P × ExhaustiveSketchSample) :=
  if s.sampleIdx ≥ P.numSamples then .error ⟨P.seed, P.numSamples, s.sampleIdx⟩
  else .ok ({ s with sampleIdx := s.sampleIdx + 1 }, s.exhaustiveSampleAt s.sampleIdx)

/-! ## The collected indices -/

theorem mem_foldl_collect {l : List (Fin P.numBuckets)} {ret : Finset (BitVec 64)} {x : BitVec 64} :
    x ∈ l.foldl s.collect ret ↔
      x ∈ ret ∨ ∃ b ∈ l, (s.buckets b).isGood P P.checksumSeed = true ∧ (s.buckets b).alpha = x := by
  induction l generalizing ret with
  | nil => simp
  | cons b l ih =>
    rw [List.foldl_cons, ih, collect]
    by_cases hb : (s.buckets b).isGood P P.checksumSeed = true
    · rw [if_pos hb, Finset.mem_insert, List.exists_mem_cons_iff]
      simp only [hb, true_and]
      rw [eq_comm]
      tauto
    · rw [if_neg hb, List.exists_mem_cons_iff]
      simp only [hb, Bool.false_eq_true, false_and, false_or]

/-- a good bucket among those that sample number k scans -/
theorem foldl_collect_eq_empty : (sampleBuckets P k).foldl s.collect ∅ = ∅ ↔
    (sampleBuckets P k).find? (fun b => (s.buckets b).isGood P P.checksumSeed) = none := by
  rw [List.find?_eq_none, Finset.eq_empty_iff_forall_notMem]
  simp only [mem_foldl_collect, Finset.notMem_empty, false_or]
  constructor
  · intro h b hb hgood
    exact h _ ⟨b, hb, hgood, rfl⟩
  · intro h x hx
    obtain ⟨b, hb, hgood, -⟩ := hx
    exact h b hb hgood

theorem exhaustiveSampleAt_zero (h : s.buckets (detBucket P) = 0) : s.exhaustiveSampleAt k = ⟨∅, .zero⟩ := by
  simp only [exhaustiveSampleAt, h]
  rw [if_pos ⟨rfl, rfl⟩]

theorem exhaustiveSampleAt_nonzero (h : s.buckets (detBucket P) ≠ 0) : s.exhaustiveSampleAt k =
    if (s.buckets (detBucket P)).isGood P P.checksumSeed then ⟨insert (s.buckets (detBucket P)).alpha ∅, .good⟩
    else if ((sampleBuckets P k).foldl s.collect ∅).card = 0 then ⟨(sampleBuckets P k).foldl s.collect ∅, .fail⟩
    else ⟨(sampleBuckets P k).foldl s.collect ∅, .good⟩ := by
  have hne : ¬ ((s.buckets (detBucket P)).alpha = 0 ∧ (s.buckets (detBucket P)).gamma = 0) := by
    intro h0
    exact h (congrArg₂ Bucket.mk h0.1 h0.2)
  exact if_neg hne

/-- the two queries classify every bucket array alike -/
theorem sampleAt_agrees (s : Sketch P) (k : ℕ) : (s.exhaustiveSampleAt k).result = (s.sampleAt k).result ∧
    ((s.sampleAt k).result = .good → (s.sampleAt k).idx ∈ (s.exhaustiveSampleAt k).idxs) ∧
    ((s.exhaustiveSampleAt k).result ≠ .good → (s.exhaustiveSampleAt k).idxs = ∅) := by
  by_cases h0 : s.buckets (detBucket P) = 0
  · rw [sampleAt_zero h0, exhaustiveSampleAt_zero h0]
    refine ⟨rfl, ?_, fun _ => rfl⟩
    intro h
    cases h
  rw [sampleAt_nonzero h0, exhaustiveSampleAt_nonzero h0]
  by_cases hdet : (s.buckets (detBucket P)).isGood P P.checksumSeed = true
  · rw [if_pos hdet, if_pos hdet]
    exact ⟨rfl, fun _ => Finset.mem_insert_self _ _, fun h => absurd rfl h⟩
  rw [if_neg hdet, if_neg hdet]
  cases hfind : (sampleBuckets P k).find? fun b => (s.buckets b).isGood P P.checksumSeed with
  | none =>
    have hret := foldl_collect_eq_empty.2 hfind
    rw [hret, if_pos Finset.card_empty]
    refine ⟨rfl, ?_, fun _ => rfl⟩
    intro h
    cases h
  | some b =>
    have hgood := List.find?_some hfind
    have hmem : (s.buckets b).alpha ∈ (sampleBuckets P k).foldl s.collect ∅ :=
      mem_foldl_collect.2 (.inr ⟨b, List.mem_of_find?_eq_some hfind, hgood, rfl⟩)
    rw [if_neg (Finset.card_ne_zero_of_mem hmem)]
    exact ⟨rfl, fun _ => hmem, fun h => absurd rfl h⟩

/-! ## Sketches of index sets -/

/-- x is alone in some bucket of the columns of sample number k -/
def Alone (P : Params) (S : Finset (BitVec 64)) (k : ℕ) (x : BitVec 64) : Prop :=
  ∃ c ∈ columns P k, ∃ d < P.bktPerCol, (S.filter fun y => Lands P y c d) = {x}

/-- if no subset of S but a single element passes the check, none but the empty one adds up to nothing: it would pass the
check with one element less -/
theorem noFalseChecksum_of_isGood (h : ∀ A ⊆ S, A.card ≠ 1 → (∑ x ∈ A, entry P x).isGood P P.checksumSeed = false) :
    NoFalseChecksum P S := by
  intro A hA
  refine ⟨h A hA, fun hne h0 => ?_⟩
  obtain ⟨x, hx⟩ := hne
  have hsum : entry P x = ∑ y ∈ A.erase x, entry P y := by
    calc entry P x = entry P x + ∑ y ∈ A, entry P y := by rw [h0, add_zero]
      _ = entry P x + (entry P x + ∑ y ∈ A.erase x, entry P y) := by rw [Finset.add_sum_erase A (entry P) hx]
      _ = ∑ y ∈ A.erase x, entry P y := by rw [← add_assoc, Bucket.add_self, zero_add]
  have hcard : (A.erase x).card = 1 := by
    by_contra hcard
    have hgood := h (A.erase x) ((Finset.erase_subset x A).trans hA) hcard
    rw [← hsum, entry_isGood] at hgood
    cases hgood
  obtain ⟨y, hy⟩ := Finset.card_eq_one.1 hcard
  rw [hy, Finset.sum_singleton] at hsum
  have hxy : x = y := congrArg Bucket.alpha hsum
  have hmem : y ∈ A.erase x := by
    rw [hy]
    exact Finset.mem_singleton_self y
  exact Finset.ne_of_mem_erase hmem hxy.symm

/-- the indices that exhaustive sample number k collects from the sketch of S -/
theorem mem_exhaustiveSampleAt (hS : Encodes s.buckets S) (hc : NoFalseChecksum P S) (hk : k < P.numSamples) (x : BitVec 64) :
    x ∈ (s.exhaustiveSampleAt k).idxs ↔ x ∈ S ∧ (S.card = 1 ∨ Alone P S k x) := by
  have halone : Alone P S k x → x ∈ S := by
    intro h
    obtain ⟨c, -, d, -, hone⟩ := h
    have hx : x ∈ S.filter fun y => Lands P y c d := by
      rw [hone]
      exact Finset.mem_singleton_self x
    exact (Finset.mem_filter.1 hx).1
  by_cases hempty : S = ∅
  · have h0 := hS.det.trans ((sum_eq_zero_iff (hc S subset_rfl)).2 hempty)
    rw [exhaustiveSampleAt_zero h0, hempty]
    simp
  have hne : s.buckets (detBucket P) ≠ 0 := by
    rw [hS.det]
    exact fun h0 => hempty ((sum_eq_zero_iff (hc S subset_rfl)).1 h0)
  have hgood : (s.buckets (detBucket P)).isGood P P.checksumSeed = true ↔ S.card = 1 := by
    rw [hS.det]
    exact sum_isGood_iff (hc S subset_rfl)
  rw [exhaustiveSampleAt_nonzero hne]
  by_cases hcard : S.card = 1
  · -- the deterministic bucket holds the only element
    rw [if_pos (hgood.2 hcard), hS.det]
    obtain ⟨y, rfl⟩ := Finset.card_eq_one.1 hcard
    simp [entry]
  rw [if_neg (hgood.not.2 hcard)]
  have hmem : x ∈ (sampleBuckets P k).foldl s.collect ∅ ↔ Alone P S k x := by
    rw [mem_foldl_collect, or_iff_right (Finset.notMem_empty x)]
    constructor
    · intro h
      obtain ⟨b, hb, hbgood, rfl⟩ := h
      obtain ⟨c, d, hcol, hd, rfl⟩ := (mem_sampleBuckets hk).1 hb
      rw [hS.column c d (lt_numColumns hk hcol) hd] at hbgood ⊢
      obtain ⟨y, hy⟩ := Finset.card_eq_one.1 ((sum_isGood_iff (hc _ (Finset.filter_subset _ S))).1 hbgood)
      refine ⟨c, hcol, d, hd, ?_⟩
      rw [hy, Finset.sum_singleton]
      rfl
    · intro h
      obtain ⟨c, hcol, d, hd, hone⟩ := h
      refine ⟨_, (mem_sampleBuckets hk).2 ⟨c, d, hcol, hd, rfl⟩, ?_⟩
      rw [hS.column c d (lt_numColumns hk hcol) hd, hone, Finset.sum_singleton]
      exact ⟨entry_isGood x, rfl⟩
  have hidxs : ∀ ret : Finset (BitVec 64), (if ret.card = 0 then (⟨ret, .fail⟩ : ExhaustiveSketchSample) else ⟨ret, .good⟩).idxs =
      ret := by
    intro ret
    split_ifs <;> rfl
  rw [hidxs, hmem, or_iff_right hcard]
  exact (and_iff_right_of_imp halone).symm

/-- **The two queries agree.** They throw on the same states, with the same exception. Otherwise they return the same
result code and leave the same sketch, the index of a GOOD sample is among the exhaustive ones, and there are none if
the result is ZERO or FAIL. If the buckets are those of the index set S, of which no subset but a single element passes
the check, the exhaustive indices are S if S has one element, and else the ones that are alone in some bucket of the
sample's columns. -/
theorem samples_agree (s : Sketch P) :
    (∀ e, s.exhaustiveSample = .error e ↔ s.sample = .error e) ∧
    ∀ s' smp, s.sample = .ok (s', smp) → ∃ ex, s.exhaustiveSample = .ok (s', ex) ∧ ex.result = smp.result ∧
      (smp.result = .good → smp.idx ∈ ex.idxs) ∧ (ex.result ≠ .good → ex.idxs = ∅) ∧
      ∀ S : Finset (BitVec 64), Encodes s.buckets S →
        (∀ A ⊆ S, A.card ≠ 1 → (∑ x ∈ A, entry P x).isGood P P.checksumSeed = false) →
        (S.card = 1 → ex.idxs = S) ∧ (S.card ≠ 1 → ∀ x, x ∈ ex.idxs ↔ x ∈ S ∧ Alone P S s.sampleIdx x) := by
  by_cases hk : s.sampleIdx < P.numSamples
  · have hsample : s.sample = .ok ({ s with sampleIdx := s.sampleIdx + 1 }, s.sampleAt s.sampleIdx) := if_neg (not_le.2 hk)
    have hexhaustive : s.exhaustiveSample = .ok ({ s with sampleIdx := s.sampleIdx + 1 }, s.exhaustiveSampleAt s.sampleIdx) :=
      if_neg (not_le.2 hk)
    rw [hsample, hexhaustive]
    constructor
    · intro e
      apply iff_of_false <;> intro h <;> cases h
    intro s' smp h
    cases h
    obtain ⟨hresult, hidx, hnone⟩ := sampleAt_agrees s s.sampleIdx
    refine ⟨_, rfl, hresult, hidx, hnone, fun S hS hc => ?_⟩
    have hmem := mem_exhaustiveSampleAt hS (noFalseChecksum_of_isGood hc) hk
    constructor
    · intro hcard
      ext x
      rw [hmem, and_iff_left (.inl hcard)]
    · intro hcard x
      rw [hmem, or_iff_right hcard]
  · have hsample : s.sample = .error ⟨P.seed, P.numSamples, s.sampleIdx⟩ := if_pos (not_lt.1 hk)
    have hexhaustive : s.exhaustiveSample = .error ⟨P.seed, P.numSamples, s.sampleIdx⟩ := if_pos (not_lt.1 hk)
    rw [hsample, hexhaustive]
    constructor
    · intro e
      rw [Except.error.injEq, Except.error.injEq]
    · intro s' smp h
      cases h

/-- two indices, each alone in a bucket of sample 0 -/
theorem samples_agree_two : ∃ s' ex, (((empty twoSamples).update 1).update 2).exhaustiveSample = .ok (s', ex) ∧
    (1#64) ∈ ex.idxs := by
  have hS : Encodes (((empty twoSamples).update 1).update 2).buckets {1, 2} := by
    rw [encodes_iff, update_buckets, update_buckets, empty_buckets, zero_add, encode, Finset.sum_pair (by decide)]
  obtain ⟨ex, hex, -, -, -, h⟩ := (samples_agree (((empty twoSamples).update 1).update 2)).2 _ _ rfl
  refine ⟨_, ex, hex, ((h _ hS fun A hA => (twoSamples_noFalseChecksum A hA).1).2 (by decide) 1).2 ⟨by decide, ?_⟩⟩
  exact ⟨0, by decide, 3, by decide, by decide +kernel⟩

end Sketch

end GraphStreamingCC
