/-
Sketches are linear: every operation on the buckets is an addition in the group of buckets under XOR.

- `contrib x`: what index x puts into each bucket; `update_buckets`: `update x` adds it, in both builds.
- `merge_buckets`, `mergeRawBucketBuffer_buckets`, `rangeMerge_buckets`, `zeroContents_buckets`: the other operations.
- `foldl_update_buckets`: a sequence of updates adds the sum of its contributions, so its order does not matter, and an
  index that comes twice cancels (`bucket_add_self`).
- `concatPairingFn_comm`: both orientations of an edge have one index; `inv_edgeIdx`: which gives back its end points.
-/
import Mathlib.Algebra.BigOperators.Group.Multiset.Basic
import Mathlib.Algebra.Group.Pi.Basic
import GraphStreamingCC.Sketch.Model

namespace GraphStreamingCC

/-! ## Buckets under XOR -/

namespace Bucket

instance : Zero Bucket := ⟨⟨0, 0⟩⟩

instance : Add Bucket := ⟨merge⟩

instance : Neg Bucket := ⟨id⟩

theorem add_def (a b : Bucket) : a + b = ⟨a.alpha ^^^ b.alpha, a.gamma ^^^ b.gamma⟩ := rfl

theorem zero_def : (0 : Bucket) = ⟨0, 0⟩ := rfl

/-- every bucket is its own inverse -/
@[simp] theorem add_self (a : Bucket) : a + a = 0 := by
  rw [add_def, BitVec.xor_self, BitVec.xor_self]; rfl

instance : AddCommGroup Bucket where
  add_assoc a b c := by simp only [add_def, BitVec.xor_assoc]
  zero_add a := by simp [add_def, zero_def]
  add_zero a := by simp [add_def, zero_def]
  add_comm a b := by simp only [add_def, BitVec.xor_comm]
  neg_add_cancel a := add_self a
  nsmul := nsmulRec
  zsmul := zsmulRec

@[simp] theorem merge_eq_add (a b : Bucket) : a.merge b = a + b := rfl

theorem update_eq_add (b : Bucket) (x h : BitVec 64) : b.update x h = b + ⟨x, h⟩ := rfl

end Bucket

/-- the content of an array of buckets -/
abbrev Content (P : Params) := Fin P.numBuckets → Bucket

namespace Sketch

variable {P : Params}

/-! ## What an index contributes -/

/-- the bucket ids that `update` changes -/
def touched (P : Params) (x : BitVec 64) : List ℕ :=
  (detBucket P).val :: (List.range P.numColumns).flatMap (columnBuckets P x)

/-- what index x adds to each bucket -/
def contrib (P : Params) (x : BitVec 64) : Fin P.numBuckets → Bucket :=
  fun b => if b.val ∈ touched P x then ⟨x, Bucket.getIndexHash P x P.checksumSeed⟩ else 0

theorem mem_columnBuckets {x : BitVec 64} {i b : ℕ} (h : b ∈ columnBuckets P x i) :
    i * P.bktPerCol ≤ b ∧ b < (i + 1) * P.bktPerCol := by
  rw [Nat.succ_mul]
  unfold columnBuckets at h
  simp only at h
  split_ifs at h with hd hl
  · obtain ⟨j, hj, rfl⟩ := List.mem_map.1 h
    have := List.mem_range.1 hj
    omega
  · have := List.mem_singleton.1 h
    omega
  · cases h

theorem columnBuckets_nodup (x : BitVec 64) (i : ℕ) : (columnBuckets P x i).Nodup := by
  unfold columnBuckets
  simp only
  split_ifs
  · exact List.nodup_range.map fun j k h => by simpa using h
  · exact List.nodup_singleton _
  · exact List.nodup_nil

theorem touched_nodup (x : BitVec 64) : (touched P x).Nodup := by
  refine List.nodup_cons.2 ⟨fun h => ?_, List.nodup_flatMap.2 ⟨fun i _ => columnBuckets_nodup x i, ?_⟩⟩
  · obtain ⟨i, hi, hb⟩ := List.mem_flatMap.1 h
    have hlt := (mem_columnBuckets hb).2
    have hle : (i + 1) * P.bktPerCol ≤ P.numColumns * P.bktPerCol := Nat.mul_le_mul_right _ (List.mem_range.1 hi)
    simp only [detBucket, Fin.val_last] at hlt
    omega
  · refine List.pairwise_lt_range.imp fun {i k} hik => ?_
    intro b hbi hbk
    have h1 := (mem_columnBuckets hbi).2
    have h2 := (mem_columnBuckets hbk).1
    have h3 : (i + 1) * P.bktPerCol ≤ k * P.bktPerCol := Nat.mul_le_mul_right _ hik
    omega

theorem foldl_updateBucket (x h : BitVec 64) {ids : List ℕ} (hn : ids.Nodup) (bs : Fin P.numBuckets → Bucket) :
    ids.foldl (updateBucket x h) bs = bs + fun b => if b.val ∈ ids then ⟨x, h⟩ else 0 := by
  induction ids generalizing bs with
  | nil => funext b; simp
  | cons i ids ih =>
    have hi := (List.nodup_cons.1 hn).1
    rw [List.foldl_cons, ih (List.nodup_cons.1 hn).2]
    funext b
    simp only [Pi.add_apply, updateBucket, List.mem_cons, Bucket.update_eq_add]
    by_cases hb : b.val = i
    · simp [hb, hi]
    · simp [hb]

/-- **An update adds the contribution of its index.** -/
theorem update_buckets (s : Sketch P) (x : BitVec 64) : (s.update x).buckets = s.buckets + contrib P x := by
  have hfold : (s.update x).buckets =
      (touched P x).foldl (updateBucket x (Bucket.getIndexHash P x P.checksumSeed)) s.buckets := by
    simp only [update, touched, List.foldl_cons, List.foldl_flatMap]
  rw [hfold, foldl_updateBucket _ _ (touched_nodup x)]
  rfl

theorem foldl_update_buckets (s : Sketch P) (xs : List (BitVec 64)) :
    (xs.foldl update s).buckets = s.buckets + (xs.map (contrib P)).sum := by
  induction xs generalizing s with
  | nil => simp
  | cons x xs ih => rw [List.foldl_cons, ih, update_buckets, List.map_cons, List.sum_cons, add_assoc]

theorem contrib_detBucket (x : BitVec 64) :
    contrib P x (detBucket P) = ⟨x, Bucket.getIndexHash P x P.checksumSeed⟩ := by
  rw [contrib, if_pos (by simp [touched])]

/-! ## The other operations -/

@[simp] theorem zeroContents_buckets (s : Sketch P) : s.zeroContents.buckets = 0 := rfl

@[simp] theorem empty_buckets : (empty P).buckets = 0 := rfl

@[simp] theorem merge_buckets (s o : Sketch P) : (s.merge o).buckets = s.buckets + o.buckets := rfl

@[simp] theorem mergeRawBucketBuffer_buckets (s : Sketch P) (raw : Fin P.numBuckets → Bucket) :
    (s.mergeRawBucketBuffer raw).buckets = s.buckets + raw := rfl

/-- the buckets that `range_merge(.., r, 1)` merges: the deterministic one and those of sample r -/
def InWindow (P : Params) (r : ℕ) (b : Fin P.numBuckets) : Prop :=
  b = detBucket P ∨
    r * P.colsPerSample * P.bktPerCol ≤ b.val ∧ b.val < (r + 1) * P.colsPerSample * P.bktPerCol

theorem rangeMerge_buckets (s o : Sketch P) {r : ℕ} (hr : r < P.numSamples) {b : Fin P.numBuckets}
    (hb : InWindow P r b) : (s.rangeMerge o r 1).buckets b = s.buckets b + o.buckets b := by
  have hr' : ¬ r + 1 > P.numSamples := by omega
  simp only [rangeMerge, if_neg hr']
  rw [if_pos, Bucket.merge_eq_add]
  refine hb.imp_right fun h => ⟨h.1, ?_⟩
  have := h.2
  rw [Nat.add_mul, Nat.add_mul] at this
  exact this

theorem rangeMerge_sampleIdx (s o : Sketch P) {r : ℕ} (hr : r < P.numSamples) :
    (s.rangeMerge o r 1).sampleIdx = max s.sampleIdx r := by
  have hr' : ¬ r + 1 > P.numSamples := by omega
  simp only [rangeMerge, if_neg hr']

/-- a merge of a sample that does not exist puts the sketch into its fail state -/
theorem rangeMerge_fail (s o : Sketch P) {r : ℕ} (hr : P.numSamples ≤ r) :
    s.rangeMerge o r 1 = { s with sampleIdx := P.numSamples } := by
  have hr' : r + 1 > P.numSamples := by omega
  simp only [rangeMerge, if_pos hr']

/-- a merge of one sample moves the sample index there, or to the end if there is no such sample -/
theorem rangeMerge_sampleIdx_le (s o : Sketch P) {r : ℕ} (hs : s.sampleIdx ≤ min r P.numSamples) :
    (s.rangeMerge o r 1).sampleIdx = min r P.numSamples := by
  by_cases hr : r < P.numSamples
  · rw [rangeMerge_sampleIdx s o hr]
    omega
  · rw [rangeMerge_fail s o (not_lt.1 hr)]
    exact (min_eq_right (not_lt.1 hr)).symm

section foldl

variable {α : Type*} {r : ℕ}

theorem foldl_rangeMerge_sampleIdx (f : α → Sketch P) {l : List α} (hl : l ≠ []) {s : Sketch P}
    (hs : s.sampleIdx ≤ min r P.numSamples) :
    (l.foldl (fun s a => s.rangeMerge (f a) r 1) s).sampleIdx = min r P.numSamples := by
  induction l generalizing s with
  | nil => exact absurd rfl hl
  | cons a l ih =>
    have ha := rangeMerge_sampleIdx_le s (f a) hs
    by_cases hnil : l = []
    · rw [hnil]
      exact ha
    · exact ih hnil ha.le

theorem foldl_rangeMerge_buckets (f : α → Sketch P) (l : List α) (s : Sketch P) (hr : r < P.numSamples)
    {b : Fin P.numBuckets} (hb : InWindow P r b) :
    (l.foldl (fun s a => s.rangeMerge (f a) r 1) s).buckets b = s.buckets b + (l.map fun a => (f a).buckets b).sum := by
  induction l generalizing s with
  | nil => simp
  | cons a l ih => rw [List.foldl_cons, ih, rangeMerge_buckets s (f a) hr hb, List.map_cons, List.sum_cons, add_assoc]

end foldl

end Sketch

/-! ## Edges -/

theorem concatPairingFn_comm (i j : BitVec 32) : concatPairingFn i j = concatPairingFn j i := by
  have hlt : ∀ {a b : BitVec 32}, a < b → concatPairingFn a b = concatPairingFn b a := by
    intro a b h
    have hn : ¬ a > b := fun hg => absurd (BitVec.lt_def.1 h) (Nat.lt_asymm (BitVec.lt_def.1 hg))
    simp only [concatPairingFn, if_neg hn, if_pos (show b > a from h)]
  rcases Nat.lt_trichotomy i.toNat j.toNat with h | h | h
  · exact hlt (BitVec.lt_def.2 h)
  · rw [BitVec.eq_of_toNat_eq h]
  · exact (hlt (BitVec.lt_def.2 h)).symm

theorem edgeIdx_comm {n : ℕ} (u v : Fin n) : edgeIdx u v = edgeIdx v u := concatPairingFn_comm _ _

/-- an index gives back its end points, the smaller one first -/
theorem inv_concatPairingFn {i j : BitVec 32} (h : i ≤ j) : invConcatPairingFn (concatPairingFn i j) = ⟨i, j⟩ := by
  have hn : ¬ i > j := BitVec.not_lt.2 h
  simp only [concatPairingFn, if_neg hn, invConcatPairingFn, Edge.mk.injEq]
  constructor
  · ext k hk
    simp [hk, show 32 + k < 64 by omega, show k < 64 by omega]
  · ext k hk
    have hmask : (4294967295#32)[k] = true := BitVec.getElem_allOnes k hk
    simp [hmask]

theorem inv_edgeIdx {n : ℕ} (hn : n ≤ 2 ^ 32) {u v : Fin n} (h : u ≤ v) :
    invConcatPairingFn (edgeIdx u v) = ⟨BitVec.ofNat 32 u, BitVec.ofNat 32 v⟩ := by
  refine inv_concatPairingFn ?_
  rw [BitVec.le_def, BitVec.toNat_ofNat, BitVec.toNat_ofNat, Nat.mod_eq_of_lt (by omega), Nat.mod_eq_of_lt (by omega)]
  exact h

/-- the index of an edge determines its end points, but for their order -/
theorem edgeIdx_eq_iff {n : ℕ} (hn : n ≤ 2 ^ 32) {u v u' v' : Fin n} : edgeIdx u v = edgeIdx u' v' ↔ s(u, v) = s(u', v') := by
  have hinj : ∀ {a b : Fin n}, BitVec.ofNat 32 a = BitVec.ofNat 32 b → a = b := by
    intro a b hab
    have := congrArg BitVec.toNat hab
    rw [BitVec.toNat_ofNat, BitVec.toNat_ofNat, Nat.mod_eq_of_lt (by omega), Nat.mod_eq_of_lt (by omega)] at this
    exact Fin.ext this
  have hsorted : ∀ {a b a' b' : Fin n}, a ≤ b → a' ≤ b' → edgeIdx a b = edgeIdx a' b' → a = a' ∧ b = b' := by
    intro a b a' b' hab hab' he
    have hinv := congrArg invConcatPairingFn he
    rw [inv_edgeIdx hn hab, inv_edgeIdx hn hab', Edge.mk.injEq] at hinv
    exact ⟨hinj hinv.1, hinj hinv.2⟩
  rw [Sym2.eq_iff]
  constructor
  · intro he
    rcases le_total u v with huv | huv <;> rcases le_total u' v' with huv' | huv'
    · exact .inl (hsorted huv huv' he)
    · exact .inr (hsorted huv huv' (he.trans (edgeIdx_comm _ _)))
    · exact .inr (hsorted huv huv' ((edgeIdx_comm _ _).trans he)).symm
    · exact .inl (hsorted huv huv' ((edgeIdx_comm _ _).trans (he.trans (edgeIdx_comm _ _)))).symm
  · intro h
    rcases h with ⟨rfl, rfl⟩ | ⟨rfl, rfl⟩
    · rfl
    · exact edgeIdx_comm _ _

end GraphStreamingCC
