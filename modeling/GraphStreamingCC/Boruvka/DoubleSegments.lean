/-
The segments of a parallel loop with the rounding of doubles (src/cc_sketch_alg.cpp: `get_ith_partition`,
`get_partition_idx`).

`div_factor` is the quotient rounded to a double; each function then rounds once more, a product or a quotient. Both
results are compared with an integer, so only the amount matters by which a multiple of `div_factor` exceeds the integer
below it: `start_le_iff` and `le_idx_iff` say how large it may be. `Agree` asks that at every border the two roundings
agree and that the last ones do not go too far; `tiles_iff`: this is exactly when the ranges tile the loop and the
functions are inverse to each other. It holds if the quotient was not rounded up (`tiles_of_not_rounded_up`); 29 items
for 7 threads violate it, where the last range ends behind the last item (`last_range_past_end`).
-/
import GraphStreamingCC.Core.Rounding

namespace GraphStreamingCC.Boruvka.Double

open Rounding

/-! ## Model -/

/-- the result of an operation on doubles -/
def double (x : ℚ) : ℚ := roundTo 53 x

def divFactor (length divisions : ℕ) : ℚ := double (length / divisions)

def getIthPartition (length i divisions : ℕ) : ℕ × ℕ :=
  let divFactor := divFactor length divisions
  (⌈double (divFactor * i)⌉₊, ⌈double (divFactor * (i + 1 : ℕ))⌉₊)

/-- the conversion to `size_t` cuts off the fraction -/
def getPartitionIdx (length idx divisions : ℕ) : ℕ := ⌊double (idx / divFactor length divisions)⌋₊

variable {n D : ℕ}

/-- the ranges tile the loop over n items, and `get_partition_idx` finds the one range of an item -/
structure Tiles (n D : ℕ) : Prop where
  first : (getIthPartition n 0 D).1 = 0
  consecutive : ∀ i, (getIthPartition n i D).2 = (getIthPartition n (i + 1) D).1
  nonempty : ∀ i < D, (getIthPartition n i D).1 < (getIthPartition n i D).2
  last : (getIthPartition n (D - 1) D).2 = n
  inverse : ∀ idx < n, getPartitionIdx n idx D < D ∧ ∀ i < D,
    getPartitionIdx n idx D = i ↔ (getIthPartition n i D).1 ≤ idx ∧ idx < (getIthPartition n i D).2

/-- how far the multiples of the rounded quotient exceed the integers below them: at a border i, the product is rounded
down to the integer k if and only if the quotient of k is rounded up to i; and the last two borders are not rounded
up -/
structure Agree (n D : ℕ) : Prop where
  last : divFactor n D * D - n ≤ halfAbove 53 n
  lastBorder : 1 < D → divFactor n D * (D - 1 : ℕ) - (n - 1 : ℕ) ≤ halfAbove 53 (n - 1)
  border : ∀ i k : ℕ, 0 < i → i < D → 0 < k → (k : ℚ) < divFactor n D * i → divFactor n D * i ≤ k + 1 →
    (divFactor n D * i - k ≤ halfAbove 53 k ↔ divFactor n D * i - k ≤ divFactor n D * halfBelow 53 i)

/-! ## One border -/

section borders

variable (hD : 0 < D) (hDn : D ≤ n) (hn : n < 2 ^ 32)
include hD hDn

theorem one_le_quotient : (1 : ℚ) ≤ n / D := by
  rw [le_div_iff₀ (by exact_mod_cast hD), one_mul]
  exact_mod_cast hDn

theorem one_le_divFactor : 1 ≤ divFactor n D := by
  have hone := one_le_quotient hD hDn
  have h := (le_roundTo_iff (p := 53) (z := 1) (x := n / D) (by linarith) one_pos (by norm_num)).2 (by
    have := halfBelow_pos 53 1
    push_cast
    linarith)
  exact_mod_cast h

theorem start_le_iff {i idx : ℕ} (hi : 0 < i) (hidx : 0 < idx) (hlt : idx < 2 ^ 32) :
    (getIthPartition n i D).1 ≤ idx ↔ divFactor n D * i - idx ≤ halfAbove 53 idx := by
  have hone := one_le_divFactor hD hDn
  have hipos : (0 : ℚ) < i := by exact_mod_cast hi
  rw [getIthPartition, Nat.ceil_le, double, roundTo_le_iff (by positivity) hidx (hlt.trans (by norm_num)),
    sub_le_iff_le_add']

theorem not_start_le_zero {i : ℕ} (hi : 0 < i) : ¬ (getIthPartition n i D).1 ≤ 0 := by
  have hone := one_le_divFactor hD hDn
  have hipos : (0 : ℚ) < i := by exact_mod_cast hi
  rw [getIthPartition, Nat.ceil_le, double, Nat.cast_zero, not_le]
  exact roundTo_pos (by norm_num) (by positivity)

theorem le_idx_iff {i idx : ℕ} (hi : 0 < i) (hlt : i < 2 ^ 32) (hidx : 0 < idx) :
    i ≤ getPartitionIdx n idx D ↔ divFactor n D * i - idx ≤ divFactor n D * halfBelow 53 i := by
  have hone := one_le_divFactor hD hDn
  have hpos : (0 : ℚ) < idx := by exact_mod_cast hidx
  have hd : 0 < divFactor n D := by linarith
  rw [getPartitionIdx, double, Nat.le_floor_iff (roundTo_pos (by norm_num) (by positivity)).le,
    le_roundTo_iff (by positivity) hi (hlt.trans (by norm_num)), le_div_iff₀ hd]
  constructor <;> intro h <;> linarith

omit hD hDn in
theorem getPartitionIdx_zero : getPartitionIdx n 0 D = 0 := by
  rw [getPartitionIdx, Nat.cast_zero, zero_div, double, roundTo_zero, Nat.floor_zero]

omit hD hDn in
theorem start_zero : (getIthPartition n 0 D).1 = 0 := by
  rw [getIthPartition, Nat.cast_zero, mul_zero, double, roundTo_zero, Nat.ceil_zero]

end borders

/-! ## From the ranges to the borders -/

theorem Tiles.start_mono (h : Tiles n D) {i j : ℕ} (hij : i ≤ j) (hj : j ≤ D) :
    (getIthPartition n i D).1 ≤ (getIthPartition n j D).1 := by
  induction j, hij using Nat.le_induction with
  | base => exact le_rfl
  | succ j _ ih => exact (ih (by omega)).trans (h.nonempty j (by omega)).le

/-- the border i lies at or before an item exactly if its range is not one before i -/
theorem Tiles.start_le_iff_le_idx (h : Tiles n D) {i idx : ℕ} (hi : i < D) (hidx : idx < n) :
    (getIthPartition n i D).1 ≤ idx ↔ i ≤ getPartitionIdx n idx D := by
  obtain ⟨hlt, hrange⟩ := h.inverse idx hidx
  obtain ⟨hlow, hhigh⟩ := (hrange _ hlt).1 rfl
  constructor
  · intro hstart
    by_contra hcon
    have := h.start_mono (i := getPartitionIdx n idx D + 1) (j := i) (by omega) hi.le
    rw [h.consecutive] at hhigh
    omega
  · intro hle
    exact (h.start_mono hle hlt.le).trans hlow

theorem Tiles.agree (hD : 0 < D) (hDn : D ≤ n) (hn : n < 2 ^ 32) (h : Tiles n D) : Agree n D := by
  have hone := one_le_divFactor hD hDn
  have hlastBorder : 1 < D → divFactor n D * (D - 1 : ℕ) - (n - 1 : ℕ) ≤ halfAbove 53 (n - 1) := by
    intro hD1
    have hne := h.nonempty (D - 1) (by omega)
    rw [h.last] at hne
    exact (start_le_iff hD hDn (by omega) (by omega) (by omega)).1 (by omega)
  refine ⟨?_, hlastBorder, fun i k hi hiD hk hlow hhigh => ?_⟩
  · have hlast := h.last
    rw [h.consecutive, Nat.sub_add_cancel hD] at hlast
    exact (start_le_iff hD hDn hD (by omega) hn).1 hlast.le
  · have hkn : k < n := by
      have hle : divFactor n D * i ≤ divFactor n D * (D - 1 : ℕ) := by
        have : (i : ℚ) ≤ (D - 1 : ℕ) := by exact_mod_cast (show i ≤ D - 1 by omega)
        gcongr
      have hhalf := halfAbove_lt_one (p := 53) (z := n - 1) (by omega) (lt_of_le_of_lt (Nat.sub_le n 1) (hn.trans (by norm_num)))
      have hlast := hlastBorder (by omega)
      have hlt : (k : ℚ) < (n - 1 : ℕ) + 1 := by linarith
      have : k < n - 1 + 1 := by exact_mod_cast hlt
      omega
    rw [← start_le_iff hD hDn hi hk (by omega), ← le_idx_iff hD hDn hi (by omega) hk]
    exact h.start_le_iff_le_idx hiD hkn

/-! ## From the borders to the ranges -/

section agree

variable (hD : 0 < D) (hDn : D ≤ n) (hn : n < 2 ^ 32) (h : Agree n D)
include hD hDn hn h

omit hn in
/-- a border before the last one is at most n - 1, up to half a unit -/
theorem Agree.border_le {i : ℕ} (hi : 0 < i) (hiD : i < D) : divFactor n D * i - (n - 1 : ℕ) ≤ halfAbove 53 (n - 1) := by
  have hone := one_le_divFactor hD hDn
  have hle : divFactor n D * i ≤ divFactor n D * (D - 1 : ℕ) := by
    have : (i : ℚ) ≤ (D - 1 : ℕ) := by exact_mod_cast (show i ≤ D - 1 by omega)
    gcongr
  have hlast := h.lastBorder (by omega)
  linarith

theorem Agree.border_le_n {i : ℕ} (hi : 0 < i) (hiD : i < D) : divFactor n D * i ≤ n := by
  have hle := h.border_le hD hDn hi hiD
  have hhalf := halfAbove_lt_one (p := 53) (z := n - 1) (by omega)
    (lt_of_le_of_lt (Nat.sub_le n 1) (hn.trans (by norm_num)))
  have : ((n - 1 : ℕ) : ℚ) + 1 = n := by exact_mod_cast Nat.sub_add_cancel (show 1 ≤ n by omega)
  linarith

/-- the rounding of a quotient is less than one item -/
theorem Agree.below_lt_one {i : ℕ} (hi : 0 < i) (hiD : i < D) : divFactor n D * halfBelow 53 i < 1 := by
  have hone := one_le_divFactor hD hDn
  have hn' : (n : ℚ) < 2 ^ 32 := by exact_mod_cast hn
  have hbelow : halfBelow 53 i ≤ i / 2 ^ 53 := (halfBelow_le 53 i).trans (halfAbove_le 53 hi)
  calc divFactor n D * halfBelow 53 i ≤ divFactor n D * (i / 2 ^ 53) := by gcongr
    _ = divFactor n D * i / 2 ^ 53 := by ring
    _ ≤ n / 2 ^ 53 := by have := h.border_le_n hD hDn hn hi hiD; gcongr
    _ < 1 := by rw [div_lt_one (by positivity)]; linarith

/-- at every item, not only at the one below the border, both roundings agree -/
theorem Agree.start_le_iff_le_idx {i idx : ℕ} (hi : 0 < i) (hiD : i < D) (hidx : idx < n) :
    (getIthPartition n i D).1 ≤ idx ↔ i ≤ getPartitionIdx n idx D := by
  have hone := one_le_divFactor hD hDn
  have hipos : (0 : ℚ) < i := by exact_mod_cast hi
  have hbelow := h.below_lt_one hD hDn hn hi hiD
  rcases Nat.eq_zero_or_pos idx with rfl | hpos
  · rw [getPartitionIdx_zero]
    exact iff_of_false (not_start_le_zero hD hDn hi) (by omega)
  rw [start_le_iff hD hDn hi hpos (by omega), le_idx_iff hD hDn hi (by omega) hpos]
  by_cases hlow : (idx : ℚ) < divFactor n D * i
  · by_cases hhigh : divFactor n D * i ≤ idx + 1
    · exact h.border i idx hi hiD hpos hlow hhigh
    · -- the border is more than one item away
      have hhalf := halfAbove_lt_one (p := 53) hpos ((hidx.trans hn).trans (by norm_num))
      exact iff_of_false (by linarith) (by linarith)
  · have hhalf := halfAbove_pos 53 idx
    have hhalf' : 0 < divFactor n D * halfBelow 53 i := mul_pos (by linarith) (halfBelow_pos 53 i)
    exact iff_of_true (by linarith) (by linarith)

omit hn h in
/-- the quotient is not rounded down by much -/
theorem quotient_sub_le : (n : ℚ) - n / 2 ^ 53 ≤ divFactor n D * D := by
  have hDpos : (0 : ℚ) < D := by exact_mod_cast hD
  have hone := one_le_quotient hD hDn
  have hdown := mul_le_mul_of_nonneg_right (sub_le_roundTo (p := 53) (x := n / D) (by linarith)) hDpos.le
  calc (n : ℚ) - n / 2 ^ 53 = (n / D - n / D / 2 ^ 53) * D := by field_simp
    _ ≤ divFactor n D * D := hdown

theorem Agree.start_last : (getIthPartition n D D).1 = n := by
  refine le_antisymm ((start_le_iff hD hDn hD (by omega) hn).2 h.last) ?_
  by_contra hlt
  rcases Nat.lt_or_ge 1 n with hn1 | hn1
  · have hle := (start_le_iff hD hDn hD (show 0 < n - 1 by omega) (by omega)).1 (by omega)
    have hhalf := halfAbove_le 53 (show 0 < n - 1 by omega)
    have hquot := quotient_sub_le hD hDn
    have hcast : ((n - 1 : ℕ) : ℚ) + 1 = n := by exact_mod_cast Nat.sub_add_cancel hn1.le
    have hn' : (n : ℚ) < 2 ^ 32 := by exact_mod_cast hn
    have : ((n - 1 : ℕ) : ℚ) / 2 ^ 53 ≤ n / 2 ^ 53 := by gcongr; linarith
    have : (n : ℚ) / 2 ^ 53 < 1 / 4 := by
      rw [div_lt_iff₀ (by positivity)]
      norm_num at hn' ⊢
      linarith
    linarith
  · exact not_start_le_zero hD hDn hD (by omega)

/-- if two borders met, one gap between items and one between quotients would both have to widen there -/
theorem Agree.start_lt_succ {i : ℕ} (hi : 0 < i) (hiD : i + 1 < D) :
    (getIthPartition n i D).1 < (getIthPartition n (i + 1) D).1 := by
  by_contra hcon
  have hone := one_le_divFactor hD hDn
  have hlt : (getIthPartition n i D).1 ≤ n - 1 :=
    (start_le_iff hD hDn hi (by omega) (by omega)).2 (h.border_le hD hDn hi (by omega))
  have hpos : 0 < (getIthPartition n i D).1 := Nat.pos_of_ne_zero fun h0 => not_start_le_zero hD hDn hi h0.le
  obtain ⟨k, hk⟩ : ∃ k, (getIthPartition n i D).1 = k + 1 := ⟨_, (Nat.sub_add_cancel hpos).symm⟩
  have hkn : k + 1 < n := by omega
  -- border i + 1 is at most at k + 1, border i is not at most at k
  have hp1 := (start_le_iff hD hDn (show 0 < i + 1 by omega) (show 0 < k + 1 by omega) (by omega)).1 (by omega)
  have hq1 := (le_idx_iff hD hDn (show 0 < i + 1 by omega) (by omega) (show 0 < k + 1 by omega)).1
    ((h.start_le_iff_le_idx hD hDn hn (by omega) hiD hkn).1 (by omega))
  have hhalf := halfAbove_lt_one (p := 53) (show 0 < k + 1 by omega) ((hkn.trans hn).trans (by norm_num))
  push_cast at hp1 hq1
  have hik : i ≤ k := by
    have hipos : (0 : ℚ) < i := by exact_mod_cast hi
    have : (i : ℚ) < k + 1 := by nlinarith
    have : i < k + 1 := by exact_mod_cast this
    omega
  have hp2 := (start_le_iff hD hDn hi (show 0 < k by omega) (by omega)).not.1 (by omega)
  have hq2 := (le_idx_iff hD hDn hi (by omega) (show 0 < k by omega)).not.1
    ((h.start_le_iff_le_idx hD hDn hn hi (by omega) (by omega)).not.1 (by omega))
  rw [not_le] at hp2 hq2
  have hk2 : k + 1 = 2 ^ Nat.log 2 (k + 1) := by
    by_contra hne
    rw [halfAbove_succ 53 (by omega) hne] at hp1
    linarith
  have hi2 : i = 2 ^ Nat.log 2 i := by
    by_contra hne
    rw [halfBelow_of_ne 53 hne] at hq2
    have := halfBelow_succ_le 53 hi
    nlinarith
  rw [halfBelow_of_eq 53 hi2] at hq2
  have hdouble : 2 * i ≤ k + 1 := by
    have hlog : Nat.log 2 i < Nat.log 2 (k + 1) := by
      refine (Nat.pow_lt_pow_iff_right one_lt_two).1 ?_
      omega
    calc 2 * i = 2 ^ (Nat.log 2 i + 1) := by rw [pow_succ, ← hi2, mul_comm]
      _ ≤ 2 ^ Nat.log 2 (k + 1) := Nat.pow_le_pow_right two_pos hlog
      _ = k + 1 := hk2.symm
  have hn' : (n : ℚ) < 2 ^ 32 := by exact_mod_cast hn
  have hwide : divFactor n D - 1 < divFactor n D * (halfAbove 53 i / 2) := by
    have := mul_le_mul_of_nonneg_left (halfBelow_succ_le 53 hi) (show 0 ≤ divFactor n D by linarith)
    linarith
  have hsmall : divFactor n D * (halfAbove 53 i / 2) ≤ 1 / 2 ^ 22 := by
    have hle := halfAbove_le 53 hi
    calc divFactor n D * (halfAbove 53 i / 2) ≤ divFactor n D * (i / 2 ^ 53 / 2) := by gcongr
      _ = divFactor n D * i / 2 ^ 54 := by ring
      _ ≤ 2 ^ 32 / 2 ^ 54 := by have := h.border_le_n hD hDn hn hi (by omega); gcongr; linarith
      _ = 1 / 2 ^ 22 := by norm_num
  have hkpos := one_div_le_halfAbove 53 k
  have hdouble' : 2 * (i : ℚ) ≤ k + 1 := by exact_mod_cast hdouble
  rcases Nat.lt_or_ge 1 i with hi1 | hi1
  · have hi1' : (2 : ℚ) ≤ i := by exact_mod_cast hi1
    norm_num at hsmall hkpos
    nlinarith
  · obtain rfl : i = 1 := by omega
    have hk1 : (1 : ℚ) ≤ k := by exact_mod_cast hik
    have hhalf1 : halfAbove 53 1 = 1 / 2 ^ 53 := by norm_num [halfAbove]
    rw [hhalf1] at hwide
    push_cast at hp2
    norm_num at hwide hkpos
    linarith

theorem Agree.nonempty {i : ℕ} (hiD : i < D) : (getIthPartition n i D).1 < (getIthPartition n i D).2 := by
  change (getIthPartition n i D).1 < (getIthPartition n (i + 1) D).1
  rcases Nat.eq_zero_or_pos i with rfl | hi
  · rw [start_zero]
    exact Nat.pos_of_ne_zero fun h0 => not_start_le_zero hD hDn one_pos h0.le
  rcases Nat.lt_or_ge (i + 1) D with hnext | hnext
  · exact h.start_lt_succ hD hDn hn hi hnext
  · obtain rfl : i + 1 = D := by omega
    have hle := (start_le_iff hD hDn hi (show 0 < n - 1 by omega) (by omega)).2 (h.border_le hD hDn hi (by omega))
    rw [h.start_last hD hDn hn]
    omega

theorem Agree.idx_lt {idx : ℕ} (hidx : idx < n) : getPartitionIdx n idx D < D := by
  rcases Nat.eq_zero_or_pos idx with rfl | hpos
  · rw [getPartitionIdx_zero]
    exact hD
  by_contra hge
  have hone := one_le_divFactor hD hDn
  have hle := (le_idx_iff hD hDn hD (by omega) hpos).1 (not_lt.1 hge)
  have hquot := quotient_sub_le hD hDn
  have hlast := h.last
  have hbelow : halfBelow 53 D ≤ D / 2 ^ 53 := (halfBelow_le 53 D).trans (halfAbove_le 53 hD)
  have hhalf := halfAbove_lt_one (p := 53) (z := n) (by omega) (hn.trans (by norm_num))
  have hn' : (n : ℚ) < 2 ^ 32 := by exact_mod_cast hn
  have hidx' : (idx : ℚ) + 1 ≤ n := by exact_mod_cast hidx
  have hsmall : divFactor n D * halfBelow 53 D ≤ 1 / 4 := by
    calc divFactor n D * halfBelow 53 D ≤ divFactor n D * (D / 2 ^ 53) := by gcongr
      _ = divFactor n D * D / 2 ^ 53 := by ring
      _ ≤ (2 ^ 32 + 1) / 2 ^ 53 := by gcongr; linarith
      _ ≤ 1 / 4 := by norm_num
  have : (n : ℚ) / 2 ^ 53 ≤ 2 ^ 32 / 2 ^ 53 := by gcongr
  norm_num at this
  linarith

theorem Agree.mem_range {idx : ℕ} (hidx : idx < n) {i : ℕ} (hiD : i < D) : getPartitionIdx n idx D = i ↔
    (getIthPartition n i D).1 ≤ idx ∧ idx < (getIthPartition n (i + 1) D).1 := by
  have hlow : (getIthPartition n i D).1 ≤ idx ↔ i ≤ getPartitionIdx n idx D := by
    rcases Nat.eq_zero_or_pos i with rfl | hi
    · rw [start_zero]
      exact iff_of_true (Nat.zero_le _) (Nat.zero_le _)
    · exact h.start_le_iff_le_idx hD hDn hn hi hiD hidx
  have hhigh : (getIthPartition n (i + 1) D).1 ≤ idx ↔ i + 1 ≤ getPartitionIdx n idx D := by
    rcases Nat.lt_or_ge (i + 1) D with hnext | hnext
    · exact h.start_le_iff_le_idx hD hDn hn (by omega) hnext hidx
    · have hlt := h.idx_lt hD hDn hn hidx
      obtain rfl : i + 1 = D := by omega
      rw [h.start_last hD hDn hn]
      exact iff_of_false (by omega) (by omega)
  rw [← not_le, hhigh, hlow]
  omega

theorem Agree.tiles : Tiles n D where
  first := start_zero
  consecutive _ := rfl
  nonempty _ hiD := h.nonempty hD hDn hn hiD
  last := by
    change (getIthPartition n (D - 1 + 1) D).1 = n
    rw [Nat.sub_add_cancel hD]
    exact h.start_last hD hDn hn
  inverse _ hidx := ⟨h.idx_lt hD hDn hn hidx, fun _ hiD => h.mem_range hD hDn hn hidx hiD⟩

end agree

/-! ## When the ranges tile -/

/-- **When the segments tile.** With the rounding of doubles, the ranges of at most n threads are consecutive, non-empty
and end at n, and `get_partition_idx` finds the one range of every item, if and only if the roundings agree. -/
theorem tiles_iff (hD : 1 ≤ D) (hDn : D ≤ n) (hn : n < 2 ^ 32) : Tiles n D ↔ Agree n D :=
  ⟨Tiles.agree hD hDn hn, Agree.tiles hD hDn hn⟩

/-- enough for it: the quotient was not rounded up, and no border that is not an item comes close to one -/
theorem tiles_of_not_rounded_up (hD : 1 ≤ D) (hDn : D ≤ n) (hn : n < 2 ^ 32) (hdown : divFactor n D ≤ n / D)
    (hnD : n * D ≤ 2 ^ 52) : Tiles n D := by
  have hDpos : (0 : ℚ) < D := by exact_mod_cast hD
  have hone := one_le_divFactor hD hDn
  have hquot : (n : ℚ) / D * D = n := div_mul_cancel₀ _ hDpos.ne'
  have hup := sub_le_roundTo (p := 53) (x := n / D) (lt_of_lt_of_le one_pos (one_le_quotient hD hDn))
  have hgap : (n : ℚ) / 2 ^ 53 ≤ 1 / D / 2 := by
    have hnD' : (n : ℚ) * D ≤ 2 ^ 52 := by exact_mod_cast hnD
    rw [div_div, div_le_div_iff₀ (by positivity) (by positivity)]
    norm_num at hnD' ⊢
    linarith
  refine Agree.tiles hD hDn hn ⟨?_, fun hD1 => ?_, fun i k hi hiD hk hlow _ => ?_⟩
  · have := halfAbove_pos 53 n
    have := mul_le_mul_of_nonneg_right hdown hDpos.le
    linarith
  · have := halfAbove_pos 53 (n - 1)
    have hcast : ((D - 1 : ℕ) : ℚ) = D - 1 := by exact_mod_cast Nat.cast_pred (R := ℚ) hD
    have hcast' : ((n - 1 : ℕ) : ℚ) = n - 1 := by exact_mod_cast Nat.cast_pred (R := ℚ) (lt_of_lt_of_le hD hDn)
    have := mul_le_mul_of_nonneg_right hdown (show (0 : ℚ) ≤ D - 1 by rw [← hcast]; positivity)
    have := one_le_quotient hD hDn
    rw [hcast, hcast']
    linarith
  · -- the exact border is no item, and at least 1 / D above the item before it
    have hiD' : (i : ℚ) + 1 ≤ D := by exact_mod_cast hiD
    have hipos : (0 : ℚ) < i := by exact_mod_cast hi
    have hdi : divFactor n D * i ≤ n / D * i := by gcongr
    have hexact : (k : ℚ) + 1 / D ≤ n / D * i := by
      have hlt : (k : ℚ) * D < n * i := by
        calc (k : ℚ) * D < divFactor n D * i * D := by gcongr
          _ ≤ n / D * i * D := by gcongr
          _ = n * i := by field_simp
      have hint : k * D + 1 ≤ n * i := by exact_mod_cast hlt
      have hint' : (k : ℚ) * D + 1 ≤ n * i := by exact_mod_cast hint
      calc (k : ℚ) + 1 / D = (k * D + 1) / D := by field_simp
        _ ≤ n * i / D := by gcongr
        _ = n / D * i := by ring
    have hn1 : (n : ℚ) / D * i < n := by
      calc (n : ℚ) / D * i < n / D * D := by have := one_le_quotient hD hDn; gcongr
        _ = n := hquot
    have hsmall : (n : ℚ) / D * i / 2 ^ 53 < n / 2 ^ 53 := by gcongr
    have hdown' : (n : ℚ) / D * i - n / D * i / 2 ^ 53 ≤ divFactor n D * i := by
      calc (n : ℚ) / D * i - n / D * i / 2 ^ 53 = (n / D - n / D / 2 ^ 53) * i := by ring
        _ ≤ divFactor n D * i := mul_le_mul_of_nonneg_right hup hipos.le
    have habove : halfAbove 53 k < n / 2 ^ 53 := by
      refine (halfAbove_le 53 hk).trans_lt ?_
      have : (k : ℚ) < n := by linarith
      gcongr
    have hbelow : divFactor n D * halfBelow 53 i < n / 2 ^ 53 := by
      have hle : halfBelow 53 i ≤ i / 2 ^ 53 := (halfBelow_le 53 i).trans (halfAbove_le 53 hi)
      calc divFactor n D * halfBelow 53 i ≤ divFactor n D * (i / 2 ^ 53) := by gcongr
        _ = divFactor n D * i / 2 ^ 53 := by ring
        _ ≤ n / D * i / 2 ^ 53 := by gcongr
        _ < n / 2 ^ 53 := hsmall
    exact iff_of_false (by linarith) (by linarith)

theorem tiles_iff_sixteen : Tiles 16 4 ∧ Agree 16 4 := by
  have h : Tiles 16 4 :=
    tiles_of_not_rounded_up (by norm_num) (by norm_num) (by norm_num) (by decide +kernel) (by norm_num)
  exact ⟨h, (tiles_iff (by norm_num) (by norm_num) (by norm_num)).1 h⟩

/-- **A range past the end.** Of 29 items, the last one of 7 threads gets the range from 25 to 30. -/
theorem last_range_past_end : (getIthPartition 29 6 7).2 = 30 ∧ ¬ Tiles 29 7 := by
  have hlast : (getIthPartition 29 6 7).2 = 30 := by decide +kernel
  refine ⟨hlast, fun h => ?_⟩
  have := h.last
  rw [hlast] at this
  exact absurd this (by norm_num)

/-- the first item of range 7 of 14 is looked for in range 6 -/
theorem idx_not_inverse : getPartitionIdx 18 9 14 = 6 ∧ getIthPartition 18 7 14 = (9, 11) := by
  decide +kernel

end GraphStreamingCC.Boruvka.Double
