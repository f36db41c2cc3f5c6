/-
The triangular edge ids (src/util.cpp: `nondirectional_non_self_edge_pairing_fn`, `inv_nondir_non_self_edge_pairing_fn`).

`include/util.h` documents the id of the pair i < j as i + j * (j - 1) / 2. The product is formed in the 32-bit variable
j, and the sum is one of two 32-bit variables, so the id is this number modulo 2 ^ 32 (`pairing_toNat`). `paired_iff`:
the ids are as documented, with the stated inverse, exactly for the pairs whose number is below 2 ^ 32, and no two of
those share one.
-/
import Mathlib.Data.Nat.Sqrt
import GraphStreamingCC.Sketch.Model

namespace GraphStreamingCC

def nondirectionalNonSelfEdgePairingFn (i j : BitVec 32) : BitVec 64 :=
  let (i, j) := if i > j then (j, i) else (i, j)
  let jm : BitVec 64 := j.setWidth 64 - 1
  let (j, jm) := if j.setWidth 64 &&& 1 = 0 then (j >>> 1, jm) else (j, jm >>> 1)
  -- j is still a `node_id_t`
  let j : BitVec 32 := (j.setWidth 64 * jm).setWidth 32
  (i + j).setWidth 64

/-- `sqrt` and the truncation of its result are the integer square root -/
def invNondirNonSelfEdgePairingFn (idx : BitVec 64) : Edge :=
  let eidx := 8 * idx + 1
  let eidx := BitVec.ofNat 64 (Nat.sqrt eidx.toNat) + 1
  let j := eidx / 2
  let i := if j &&& 1 = 0 then idx - (j >>> 1) * (j - 1) else idx - j * ((j - 1) >>> 1)
  ⟨i.setWidth 32, j.setWidth 32⟩

namespace Pairing

/-- the documented id of a pair -/
def triangular (i j : ℕ) : ℕ := min i j + max i j * (max i j - 1) / 2

theorem triangular_of_lt {i j : ℕ} (h : i < j) : triangular i j = i + j * (j - 1) / 2 := by
  rw [triangular, min_eq_left h.le, max_eq_right h.le]

theorem triangular_comm (i j : ℕ) : triangular i j = triangular j i := by
  rw [triangular, triangular, min_comm, max_comm]

/-! ## Triangular numbers -/

theorem two_mul_half (j : ℕ) : 2 * (j * (j - 1) / 2) = j * (j - 1) := Nat.two_mul_div_two_of_even (Nat.even_mul_pred_self j)

/-- the product as the two functions form it: the even factor is halved first -/
theorem half_mul (j : ℕ) : j * (j - 1) / 2 = if j % 2 = 0 then j / 2 * (j - 1) else j * ((j - 1) / 2) := by
  split_ifs with h
  · exact (Nat.div_mul_right_comm (Nat.dvd_of_mod_eq_zero h) _).symm
  · exact Nat.mul_div_assoc j (by omega)

/-- the row of a number: between two odd squares -/
theorem sqrt_row {i j : ℕ} (h : i < j) : (Nat.sqrt (8 * (i + j * (j - 1) / 2) + 1) + 1) / 2 = j := by
  obtain ⟨m, rfl⟩ : ∃ m, j = m + 1 := ⟨j - 1, by omega⟩
  have hrow := two_mul_half (m + 1)
  rw [Nat.add_sub_cancel] at hrow ⊢
  have hlow : 2 * m + 1 ≤ Nat.sqrt (8 * (i + (m + 1) * m / 2) + 1) := by
    rw [Nat.le_sqrt]
    nlinarith
  have hhigh : Nat.sqrt (8 * (i + (m + 1) * m / 2) + 1) < 2 * m + 3 := by
    rw [Nat.sqrt_lt]
    nlinarith
  omega

/-! ## The ids -/

theorem and_one_eq_zero_iff (x : BitVec 64) : x &&& 1 = 0 ↔ x.toNat % 2 = 0 := by
  rw [← BitVec.toNat_inj, BitVec.toNat_and]
  exact (Nat.and_one_is_mod x.toNat).symm ▸ Iff.rfl

theorem pairing_of_lt {i j : BitVec 32} (h : i.toNat < j.toNat) :
    (nondirectionalNonSelfEdgePairingFn i j).toNat = (i.toNat + j.toNat * (j.toNat - 1) / 2) % 2 ^ 32 := by
  have hj := j.isLt
  have hnot : ¬ i > j := by
    intro hgt
    exact absurd (BitVec.lt_def.1 hgt) (by omega)
  have hj64 : (j.setWidth 64).toNat = j.toNat := by
    rw [BitVec.toNat_setWidth, Nat.mod_eq_of_lt (by omega)]
  have hjm : (j.setWidth 64 - 1).toNat = j.toNat - 1 := by
    rw [BitVec.toNat_sub_of_le (by rw [BitVec.le_def, hj64]; exact Nat.one_le_of_lt h), hj64]
    rfl
  have hparity := and_one_eq_zero_iff (j.setWidth 64)
  rw [hj64] at hparity
  have hprod : j.toNat * (j.toNat - 1) / 2 < 2 ^ 64 := by
    have : j.toNat * (j.toNat - 1) ≤ 2 ^ 32 * 2 ^ 32 := Nat.mul_le_mul hj.le (by omega)
    omega
  simp only [nondirectionalNonSelfEdgePairingFn, if_neg hnot]
  rw [half_mul] at hprod ⊢
  by_cases heven : j.toNat % 2 = 0
  · rw [if_pos heven] at hprod ⊢
    rw [if_pos (hparity.2 heven)]
    have hhalf : ((j >>> 1).setWidth 64).toNat = j.toNat / 2 := by
      rw [BitVec.toNat_setWidth, BitVec.toNat_ushiftRight, Nat.shiftRight_eq_div_pow, pow_one, Nat.mod_eq_of_lt (by omega)]
    simp only [BitVec.toNat_setWidth, BitVec.toNat_add, BitVec.toNat_mul, hhalf, hjm]
    omega
  · rw [if_neg heven] at hprod ⊢
    rw [if_neg (hparity.not.2 heven)]
    have hhalf : ((j.setWidth 64 - 1) >>> 1).toNat = (j.toNat - 1) / 2 := by
      rw [BitVec.toNat_ushiftRight, Nat.shiftRight_eq_div_pow, pow_one, hjm]
    simp only [BitVec.toNat_setWidth, BitVec.toNat_add, BitVec.toNat_mul, hhalf, hj64]
    omega

/-- the swap -/
theorem pairing_comm (i j : BitVec 32) : nondirectionalNonSelfEdgePairingFn j i = nondirectionalNonSelfEdgePairingFn i j := by
  have hswap : (if j > i then (i, j) else (j, i)) = if i > j then (j, i) else (i, j) := by
    rcases BitVec.lt_trichotomy i j with h | h | h
    · rw [if_pos h, if_neg (BitVec.lt_asymm h)]
    · rw [h]
    · rw [if_neg (BitVec.lt_asymm h), if_pos h]
  simp only [nondirectionalNonSelfEdgePairingFn, hswap]

/-- the inverse finds the row, and the column in it -/
theorem inverse_of_lt {i j : BitVec 32} {idx : BitVec 64} (h : i.toNat < j.toNat)
    (hidx : idx.toNat = i.toNat + j.toNat * (j.toNat - 1) / 2) (hlt : idx.toNat < 2 ^ 32) :
    invNondirNonSelfEdgePairingFn idx = ⟨i, j⟩ := by
  have hodd : (8 * idx + 1).toNat = 8 * (i.toNat + j.toNat * (j.toNat - 1) / 2) + 1 := by
    have h8 : (8 : BitVec 64).toNat = 8 := rfl
    have h1 : (1 : BitVec 64).toNat = 1 := rfl
    rw [BitVec.toNat_add, BitVec.toNat_mul, h8, h1, ← hidx]
    omega
  have hsqrt : Nat.sqrt (8 * idx + 1).toNat < 2 ^ 32 := by
    rw [Nat.sqrt_lt, hodd, ← hidx]
    omega
  have hj := j.isLt
  have hrow : ((BitVec.ofNat 64 (Nat.sqrt (8 * idx + 1).toNat) + 1) / 2).toNat = j.toNat := by
    have h1 : (1 : BitVec 64).toNat = 1 := rfl
    have h2 : (2 : BitVec 64).toNat = 2 := rfl
    have hhalf := sqrt_row h
    rw [← hodd] at hhalf
    rw [BitVec.toNat_udiv, BitVec.toNat_add, BitVec.toNat_ofNat, h1, h2]
    omega
  simp only [invNondirNonSelfEdgePairingFn]
  generalize (BitVec.ofNat 64 (Nat.sqrt (8 * idx + 1).toNat) + 1) / 2 = row at hrow ⊢
  have hpred : (row - 1).toNat = j.toNat - 1 := by
    rw [BitVec.toNat_sub_of_le (by rw [BitVec.le_def, hrow]; exact Nat.one_le_of_lt h), hrow]
    rfl
  have hparity := and_one_eq_zero_iff row
  rw [hrow] at hparity
  have hhalf := half_mul j.toNat
  have hcol : (if row &&& 1 = 0 then idx - (row >>> 1) * (row - 1) else idx - row * ((row - 1) >>> 1)).toNat = i.toNat := by
    by_cases heven : j.toNat % 2 = 0
    · rw [if_pos heven] at hhalf
      have hprod : ((row >>> 1) * (row - 1)).toNat = j.toNat * (j.toNat - 1) / 2 := by
        rw [BitVec.toNat_mul, BitVec.toNat_ushiftRight, Nat.shiftRight_eq_div_pow, pow_one, hrow, hpred, ← hhalf]
        exact Nat.mod_eq_of_lt (by omega)
      rw [if_pos (hparity.2 heven), BitVec.toNat_sub_of_le (by rw [BitVec.le_def, hprod]; omega), hprod]
      omega
    · rw [if_neg heven] at hhalf
      have hprod : (row * ((row - 1) >>> 1)).toNat = j.toNat * (j.toNat - 1) / 2 := by
        rw [BitVec.toNat_mul, BitVec.toNat_ushiftRight, Nat.shiftRight_eq_div_pow, pow_one, hrow, hpred, ← hhalf]
        exact Nat.mod_eq_of_lt (by omega)
      rw [if_neg (hparity.not.2 heven), BitVec.toNat_sub_of_le (by rw [BitVec.le_def, hprod]; omega), hprod]
      omega
  refine congrArg₂ Edge.mk (BitVec.eq_of_toNat_eq ?_) (BitVec.eq_of_toNat_eq ?_)
  · rw [BitVec.toNat_setWidth, hcol]
    exact Nat.mod_eq_of_lt i.isLt
  · rw [BitVec.toNat_setWidth, hrow]
    exact Nat.mod_eq_of_lt j.isLt

/-- the id of a pair is as documented, for both orders, and the inverse gives the pair in order -/
structure Paired (i j : BitVec 32) : Prop where
  formula : (nondirectionalNonSelfEdgePairingFn i j).toNat = triangular i.toNat j.toNat
  comm : nondirectionalNonSelfEdgePairingFn j i = nondirectionalNonSelfEdgePairingFn i j
  inverse : invNondirNonSelfEdgePairingFn (nondirectionalNonSelfEdgePairingFn i j) =
    if i.toNat ≤ j.toNat then ⟨i, j⟩ else ⟨j, i⟩

theorem paired_of_lt {i j : BitVec 32} (h : i.toNat < j.toNat) : Paired i j ↔ triangular i.toNat j.toNat < 2 ^ 32 := by
  have hid := pairing_of_lt h
  have htri := triangular_of_lt h
  constructor
  · intro hp
    rw [← hp.formula, hid]
    exact Nat.mod_lt _ (by norm_num)
  · intro hlt
    rw [← htri, Nat.mod_eq_of_lt hlt] at hid
    refine ⟨hid, pairing_comm i j, ?_⟩
    rw [if_pos h.le]
    exact inverse_of_lt h (hid.trans htri) (hid ▸ hlt)

theorem Paired.symm {i j : BitVec 32} (hne : i ≠ j) (h : Paired i j) : Paired j i := by
  refine ⟨?_, (pairing_comm i j).symm, ?_⟩
  · rw [pairing_comm, h.formula, triangular_comm]
  · rw [pairing_comm, h.inverse]
    have hnat : i.toNat ≠ j.toNat := fun he => hne (BitVec.eq_of_toNat_eq he)
    split_ifs <;> first | rfl | omega

theorem paired_iff {i j : BitVec 32} (hne : i ≠ j) : Paired i j ↔ triangular i.toNat j.toNat < 2 ^ 32 := by
  rcases Nat.lt_or_gt_of_ne fun he => hne (BitVec.eq_of_toNat_eq he) with h | h
  · exact paired_of_lt h
  · rw [triangular_comm, ← paired_of_lt h]
    exact ⟨Paired.symm hne, Paired.symm hne.symm⟩

/-- one id, one pair -/
theorem Paired.inj {i j k l : BitVec 32} (hij : Paired i j) (hkl : Paired k l)
    (h : nondirectionalNonSelfEdgePairingFn i j = nondirectionalNonSelfEdgePairingFn k l) : s(i, j) = s(k, l) := by
  have hinv := hij.inverse.symm.trans ((congrArg invNondirNonSelfEdgePairingFn h).trans hkl.inverse)
  rw [Sym2.eq_iff]
  split_ifs at hinv <;> cases hinv <;> simp

/-- **The triangular pairing.** For any two pairs of different node ids: both have the documented ids, the same in
either order and with the stated inverse, and different ids if they are different pairs, if and only if both documented
ids are below 2 ^ 32. -/
theorem pairing_bijective_iff {i j k l : BitVec 32} (hij : i ≠ j) (hkl : k ≠ l) :
    (Paired i j ∧ Paired k l ∧
      (s(i, j) ≠ s(k, l) → nondirectionalNonSelfEdgePairingFn i j ≠ nondirectionalNonSelfEdgePairingFn k l)) ↔
    triangular i.toNat j.toNat < 2 ^ 32 ∧ triangular k.toNat l.toNat < 2 ^ 32 := by
  rw [← paired_iff hij, ← paired_iff hkl]
  constructor
  · intro h
    exact ⟨h.1, h.2.1⟩
  · intro h
    exact ⟨h.1, h.2, fun hne he => hne (h.1.inj h.2 he)⟩

theorem pairing_bijective_iff_row : Paired 3 92682 ∧
    nondirectionalNonSelfEdgePairingFn 3 92682 ≠ nondirectionalNonSelfEdgePairingFn 92682 4 := by
  have h := (@pairing_bijective_iff 3 92682 92682 4 (by decide) (by decide)).2 ⟨by decide, by decide⟩
  exact ⟨h.1, h.2.2 (by decide)⟩

/-- **The first row that is cut off.** Its pairs get the ids of others. -/
theorem pairing_truncated : triangular 0 92683 = 4295022903 ∧ nondirectionalNonSelfEdgePairingFn 0 92683 = 55607 ∧
    nondirectionalNonSelfEdgePairingFn 329 333 = 55607 ∧ ¬ Paired 0 92683 := by
  refine ⟨by decide, by decide, by decide, fun h => ?_⟩
  have := h.formula
  revert this
  decide

end Pairing

end GraphStreamingCC
