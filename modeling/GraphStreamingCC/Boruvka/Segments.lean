/-
The segments of a parallel loop (src/cc_sketch_alg.cpp: `get_ith_partition`, `get_partition_idx`), with exact rationals in
place of the doubles.

The two functions are inverse to each other (`mem_partition_iff`); with no more threads than items no segment is empty
(`partition_nonempty`). `loopRange` is the range of a loop over a segment.
-/
import Mathlib.Tactic
import Mathlib.Algebra.BigOperators.Fin
import Mathlib.Algebra.Order.Floor.Div

namespace GraphStreamingCC.Boruvka

/-- the half-open range of thread i: `ceil(div_factor * i)` to `ceil(div_factor * (i + 1))` -/
def getIthPartition (length i divisions : ℕ) : ℕ × ℕ :=
  ((length * i) ⌈/⌉ divisions, (length * (i + 1)) ⌈/⌉ divisions)

/-- the thread that index `idx` belongs to: `idx / div_factor` -/
def getPartitionIdx (length idx divisions : ℕ) : ℕ := idx * divisions / length

variable {n T t i j : ℕ}

theorem partition_zero : (getIthPartition n 0 T).1 = 0 := by
  rw [getIthPartition, mul_zero, zero_ceilDiv]

theorem partition_succ : (getIthPartition n (t + 1) T).1 = (getIthPartition n t T).2 := rfl

theorem start_le_iff (hT : 0 < T) (hn : 0 < n) : (getIthPartition n t T).1 ≤ i ↔ t ≤ getPartitionIdx n i T := by
  rw [getIthPartition, getPartitionIdx, ceilDiv_le_iff_le_mul hT, Nat.le_div_iff_mul_le hn, mul_comm t n, mul_comm i T]

theorem stop_le_iff (hT : 0 < T) (hn : 0 < n) : (getIthPartition n t T).2 ≤ i ↔ t < getPartitionIdx n i T :=
  start_le_iff (t := t + 1) hT hn

/-- the two functions are inverse to each other -/
theorem mem_partition_iff (hT : 0 < T) (hn : 0 < n) :
    (getIthPartition n t T).1 ≤ i ∧ i < (getIthPartition n t T).2 ↔ getPartitionIdx n i T = t := by
  rw [start_le_iff hT hn, ← not_le, stop_le_iff hT hn]
  omega

theorem getPartitionIdx_lt (hi : i < n) (hT : 0 < T) : getPartitionIdx n i T < T := by
  rw [getPartitionIdx, Nat.div_lt_iff_lt_mul (by omega), mul_comm T n]
  exact Nat.mul_lt_mul_of_pos_right hi hT

theorem getPartitionIdx_mono (h : i ≤ j) : getPartitionIdx n i T ≤ getPartitionIdx n j T :=
  Nat.div_le_div_right (Nat.mul_le_mul_right T h)

/-- with at most as many threads as items, every thread has an item -/
theorem partition_nonempty (hTn : T ≤ n) (hT : 0 < T) : (getIthPartition n t T).1 < (getIthPartition n t T).2 := by
  simp only [getIthPartition]
  rw [← not_le, ceilDiv_le_iff_le_mul hT, not_le]
  have hle : T * ((n * t) ⌈/⌉ T) < n * t + T := by
    by_contra hge
    have hpos : 0 < (n * t) ⌈/⌉ T := by
      by_contra h0
      rw [Nat.eq_zero_of_not_pos h0] at hge
      omega
    have h : n * t ≤ T * ((n * t) ⌈/⌉ T - 1) := by
      rw [Nat.mul_sub, mul_one]
      omega
    have := (ceilDiv_le_iff_le_mul hT).2 h
    omega
  rw [Nat.mul_succ]
  omega

theorem partition_le (ht : t < T) : (getIthPartition n t T).2 ≤ n := by
  refine (ceilDiv_le_iff_le_mul (by omega)).2 ?_
  rw [mul_comm T n]
  exact Nat.mul_le_mul_left n ht

/-! ## Loops over a range -/

/-- the vertices that `for (i = start; i < stop; i++)` goes through -/
def loopRange (n start stop : ℕ) : List (Fin n) :=
  (List.range' start (stop - start)).filterMap fun i => if h : i < n then some ⟨i, h⟩ else none

variable {a b : ℕ}

theorem mem_loopRange {i : Fin n} : i ∈ loopRange n a b ↔ a ≤ i ∧ i < b := by
  simp only [loopRange, List.mem_filterMap, List.mem_range'_1, Option.dite_none_right_eq_some, Option.some.injEq]
  constructor
  · rintro ⟨k, hk, hlt, rfl⟩
    simp only
    omega
  · intro h
    exact ⟨i, by omega, i.isLt, rfl⟩

theorem loopRange_cons (hab : a < b) (ha : a < n) : loopRange n a b = ⟨a, ha⟩ :: loopRange n (a + 1) b := by
  rw [loopRange, show b - a = b - (a + 1) + 1 by omega, List.range'_succ, List.filterMap_cons_some (dif_pos ha)]
  rfl

theorem loopRange_snoc (hab : a ≤ b) (hb : b < n) : loopRange n a (b + 1) = loopRange n a b ++ [⟨b, hb⟩] := by
  rw [loopRange, show b + 1 - a = b - a + 1 by omega, List.range'_concat, List.filterMap_append, ← loopRange,
    show a + 1 * (b - a) = b by omega, List.filterMap_cons_some (dif_pos hb), List.filterMap_nil]

theorem loopRange_self : loopRange n a a = [] := by
  rw [loopRange, Nat.sub_self]
  rfl

theorem pairwise_loopRange : (loopRange n a b).Pairwise (· < ·) := by
  refine List.Pairwise.filterMap _ (fun i j hij x hx y hy => ?_) List.pairwise_lt_range'
  obtain ⟨hi, hx⟩ := Option.dite_none_right_eq_some.1 hx
  obtain ⟨hj, hy⟩ := Option.dite_none_right_eq_some.1 hy
  cases hx
  cases hy
  exact hij

theorem nodup_loopRange : (loopRange n a b).Nodup := pairwise_loopRange.imp ne_of_lt

/-- a sum along a loop -/
theorem sum_loopRange {M : Type*} [AddCommMonoid M] (Q : Fin n → Prop) [DecidablePred Q] (f : Fin n → M) :
    (((loopRange n a b).filter Q).map f).sum = ∑ i with (a ≤ i.val ∧ i.val < b) ∧ Q i, f i := by
  rw [← List.sum_toFinset f (nodup_loopRange.filter _)]
  refine Finset.sum_congr ?_ fun _ _ => rfl
  ext i
  simp [mem_loopRange]

end GraphStreamingCC.Boruvka
