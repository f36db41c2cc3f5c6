/-
Rounding of positive rationals to the nearest number with a significand of p bits, ties to even, independent of any
program.

Between two powers of two the numbers with p bits are the multiples of one unit, `unit p e`; `roundTo` rounds to such a
multiple. `roundTo_le_iff` and `le_roundTo_iff` say when a rounded number is at most, or at least, a natural number z
below 2^(p-1): when the number itself is, up to half a unit. Such a z is an even multiple of its unit, so a tie goes to
z. Below a power of two the units are half as large (`halfBelow`).
-/
import Mathlib.Tactic
import Mathlib.Data.Int.Log
import Mathlib.Data.Nat.Log

namespace GraphStreamingCC.Rounding

/-! ## Rounding to an integer -/

/-- the nearest integer, the even one of two -/
def nearestEven (q : ℚ) : ℤ :=
  let f := ⌊q⌋
  if q - f < 1 / 2 then f
  else if q - f = 1 / 2 ∧ f % 2 = 0 then f
  else f + 1

theorem nearestEven_le_iff {q : ℚ} {k : ℤ} (hk : k % 2 = 0) : nearestEven q ≤ k ↔ q ≤ k + 1 / 2 := by
  have hlow := Int.floor_le q
  have hhigh := Int.lt_floor_add_one q
  have hlt : ⌊q⌋ < k → q ≤ k + 1 / 2 := by
    intro h
    have : ((⌊q⌋ + 1 : ℤ) : ℚ) ≤ k := by exact_mod_cast h
    push_cast at this
    linarith
  have hgt : k < ⌊q⌋ → ¬ q ≤ k + 1 / 2 := by
    intro h
    have : ((k + 1 : ℤ) : ℚ) ≤ ⌊q⌋ := by exact_mod_cast h
    push_cast at this
    linarith
  simp only [nearestEven]
  rcases lt_trichotomy ⌊q⌋ k with h | h | h
  · refine iff_of_true ?_ (hlt h)
    split_ifs <;> omega
  · rw [h] at *
    split_ifs with h1 h2
    · exact iff_of_true le_rfl (by linarith)
    · exact iff_of_true le_rfl (by linarith [h2.1])
    · have hne : q - k ≠ 1 / 2 := fun he => h2 ⟨he, hk⟩
      have hgt' : 1 / 2 < q - k := lt_of_le_of_ne (not_lt.1 h1) (Ne.symm hne)
      exact iff_of_false (by omega) (by linarith)
  · refine iff_of_false ?_ (hgt h)
    split_ifs <;> omega

theorem le_nearestEven_iff {q : ℚ} {k : ℤ} (hk : k % 2 = 0) : k ≤ nearestEven q ↔ k - 1 / 2 ≤ q := by
  have hlow := Int.floor_le q
  have hhigh := Int.lt_floor_add_one q
  have hge : k ≤ ⌊q⌋ → (k : ℚ) - 1 / 2 ≤ q := by
    intro h
    have : (k : ℚ) ≤ ⌊q⌋ := by exact_mod_cast h
    linarith
  have hlt : ⌊q⌋ + 1 < k → ¬ (k : ℚ) - 1 / 2 ≤ q := by
    intro h
    have : ((⌊q⌋ + 1 + 1 : ℤ) : ℚ) ≤ k := by exact_mod_cast h
    push_cast at this
    linarith
  simp only [nearestEven]
  rcases lt_trichotomy (⌊q⌋ + 1) k with h | h | h
  · refine iff_of_false ?_ (hlt h)
    split_ifs <;> omega
  · -- the integer below k is odd, so a tie goes up to k
    have hcast : (k : ℚ) = ⌊q⌋ + 1 := by exact_mod_cast h.symm
    split_ifs with h1 h2
    · exact iff_of_false (by omega) (by linarith)
    · exact absurd h2.2 (by omega)
    · exact iff_of_true h.ge (by linarith [not_lt.1 h1])
  · refine iff_of_true ?_ (hge (by omega))
    split_ifs <;> omega

theorem sub_half_le_nearestEven (q : ℚ) : q - 1 / 2 ≤ nearestEven q := by
  have hhigh := Int.lt_floor_add_one q
  simp only [nearestEven]
  split_ifs with h1 h2
  · linarith
  · linarith [h2.1]
  · push_cast
    linarith

/-! ## Rounding to p bits -/

/-- the unit of the numbers of p bits from 2^e to 2^(e+1) -/
def unit (p : ℕ) (e : ℤ) : ℚ := 2 ^ (e + 1 - p)

/-- a positive number rounded to p bits; anything else is 0 -/
def roundTo (p : ℕ) (x : ℚ) : ℚ :=
  if 0 < x then nearestEven (x / unit p (Int.log 2 x)) * unit p (Int.log 2 x) else 0

/-- half the distance from z to the next number of p bits -/
def halfAbove (p z : ℕ) : ℚ := 2 ^ (Nat.log 2 z) / 2 ^ p

/-- half the distance from z to the number of p bits before it -/
def halfBelow (p z : ℕ) : ℚ := if z = 2 ^ Nat.log 2 z then halfAbove p z / 2 else halfAbove p z

variable {p z : ℕ} {x : ℚ}

theorem unit_pos (p : ℕ) (e : ℤ) : 0 < unit p e := by
  unfold unit
  positivity

theorem roundTo_zero (p : ℕ) : roundTo p 0 = 0 := if_neg (lt_irrefl 0)

/-- against an even multiple of its own unit -/
theorem roundTo_le_mul_iff (hx : 0 < x) {k : ℤ} (hk : k % 2 = 0) :
    roundTo p x ≤ k * unit p (Int.log 2 x) ↔ x ≤ (k + 1 / 2) * unit p (Int.log 2 x) := by
  rw [roundTo, if_pos hx, mul_le_mul_iff_left₀ (unit_pos _ _), Int.cast_le, nearestEven_le_iff hk,
    div_le_iff₀ (unit_pos _ _)]

theorem mul_le_roundTo_iff (hx : 0 < x) {k : ℤ} (hk : k % 2 = 0) :
    k * unit p (Int.log 2 x) ≤ roundTo p x ↔ (k - 1 / 2) * unit p (Int.log 2 x) ≤ x := by
  rw [roundTo, if_pos hx, mul_le_mul_iff_left₀ (unit_pos _ _), Int.cast_le, le_nearestEven_iff hk,
    le_div_iff₀ (unit_pos _ _)]

/-- a power of two is a multiple of the units below it -/
theorem pow_eq_mul_unit {e f : ℤ} (h : e + 1 - p ≤ f) : (2 : ℚ) ^ f = ((2 ^ (f - (e + 1 - p)).toNat : ℤ) : ℚ) * unit p e := by
  rw [unit]
  push_cast
  rw [← zpow_natCast, Int.toNat_of_nonneg (by omega), ← zpow_add₀ two_ne_zero]
  congr 1
  omega

theorem two_pow_even {k : ℕ} (hk : 0 < k) : (2 ^ k : ℤ) % 2 = 0 := by
  obtain ⟨k, rfl⟩ := Nat.exists_eq_succ_of_ne_zero hk.ne'
  rw [pow_succ]
  exact Int.mul_emod_left _ _

section log

theorem zpow_log_le (hx : 0 < x) : (2 : ℚ) ^ Int.log 2 x ≤ x := by
  exact_mod_cast Int.zpow_log_le_self one_lt_two hx

theorem lt_zpow_log (x : ℚ) : x < (2 : ℚ) ^ (Int.log 2 x + 1) := by
  exact_mod_cast Int.lt_zpow_succ_log_self one_lt_two x

theorem pow_log_le (hz : 0 < z) : (2 : ℚ) ^ (Nat.log 2 z : ℤ) ≤ z := by
  rw [zpow_natCast]
  exact_mod_cast Nat.pow_log_le_self 2 hz.ne'

/-- the next power of two is out of reach, even for the integer behind z -/
theorem add_one_le_pow_log (z : ℕ) : (z : ℚ) + 1 ≤ 2 ^ (Nat.log 2 z + 1 : ℤ) := by
  have h := Nat.lt_pow_succ_log_self one_lt_two z
  have : ((z + 1 : ℕ) : ℚ) ≤ ((2 ^ (Nat.log 2 z + 1) : ℕ) : ℚ) := by exact_mod_cast h
  push_cast at this
  exact_mod_cast this

end log

/-- a rounded number stays between the powers of two around it -/
theorem roundTo_le_zpow (hp : 1 < p) (hx : 0 < x) : roundTo p x ≤ 2 ^ (Int.log 2 x + 1) := by
  rw [pow_eq_mul_unit (p := p) (e := Int.log 2 x) (by omega), roundTo_le_mul_iff hx (two_pow_even (by omega)),
    add_mul, ← pow_eq_mul_unit (by omega)]
  have := unit_pos p (Int.log 2 x)
  have := lt_zpow_log x
  linarith

theorem zpow_le_roundTo (hp : 1 < p) (hx : 0 < x) : 2 ^ Int.log 2 x ≤ roundTo p x := by
  rw [pow_eq_mul_unit (p := p) (e := Int.log 2 x) (by omega), mul_le_roundTo_iff hx (two_pow_even (by omega)),
    sub_mul, ← pow_eq_mul_unit (by omega)]
  have := unit_pos p (Int.log 2 x)
  have := zpow_log_le hx
  linarith

theorem halfAbove_pos (p z : ℕ) : 0 < halfAbove p z := by
  unfold halfAbove
  positivity

theorem halfBelow_pos (p z : ℕ) : 0 < halfBelow p z := by
  have := halfAbove_pos p z
  unfold halfBelow
  split_ifs <;> linarith

theorem halfBelow_le (p z : ℕ) : halfBelow p z ≤ halfAbove p z := by
  have := halfAbove_pos p z
  unfold halfBelow
  split_ifs <;> linarith

theorem halfBelow_of_ne (p : ℕ) (h : z ≠ 2 ^ Nat.log 2 z) : halfBelow p z = halfAbove p z := if_neg h

theorem halfBelow_of_eq (p : ℕ) (h : z = 2 ^ Nat.log 2 z) : halfBelow p z = halfAbove p z / 2 := if_pos h

theorem log_succ_cases (hz : 0 < z) : Nat.log 2 (z + 1) = Nat.log 2 z ∨ z + 1 = 2 ^ (Nat.log 2 z + 1) := by
  have hlow := Nat.pow_log_le_self 2 hz.ne'
  have hhigh := Nat.lt_pow_succ_log_self one_lt_two z
  rcases Nat.lt_or_ge (z + 1) (2 ^ (Nat.log 2 z + 1)) with h | h
  · exact .inl (Nat.log_eq_of_pow_le_of_lt_pow (by omega) h)
  · exact .inr (by omega)

/-- the gap between z and z + 1 has one width, unless z + 1 is a power of two -/
theorem halfAbove_succ (p : ℕ) (hz : 0 < z) (h : z + 1 ≠ 2 ^ Nat.log 2 (z + 1)) : halfAbove p (z + 1) = halfAbove p z := by
  rcases log_succ_cases hz with he | he
  · rw [halfAbove, he, halfAbove]
  · exfalso
    apply h
    rw [he, Nat.log_pow one_lt_two]

theorem halfBelow_succ_le (p : ℕ) (hz : 0 < z) : halfBelow p (z + 1) ≤ halfAbove p z := by
  rcases log_succ_cases hz with he | he
  · refine (halfBelow_le p (z + 1)).trans_eq ?_
    rw [halfAbove, he, halfAbove]
  · have hlog : Nat.log 2 (z + 1) = Nat.log 2 z + 1 := by rw [he, Nat.log_pow one_lt_two]
    rw [halfBelow_of_eq p (by rw [hlog, ← he]), halfAbove, hlog, halfAbove, pow_succ]
    refine le_of_eq ?_
    ring

theorem one_div_le_halfAbove (p z : ℕ) : 1 / 2 ^ p ≤ halfAbove p z := by
  unfold halfAbove
  have : (1 : ℚ) ≤ 2 ^ Nat.log 2 z := one_le_pow₀ one_le_two
  gcongr

/-- relative to z -/
theorem halfAbove_le (p : ℕ) (hz : 0 < z) : halfAbove p z ≤ z / 2 ^ p := by
  unfold halfAbove
  have h := pow_log_le hz
  rw [zpow_natCast] at h
  gcongr

theorem unit_log (p z : ℕ) : unit p (Nat.log 2 z) = 2 * halfAbove p z := by
  rw [unit, halfAbove, zpow_sub₀ two_ne_zero, zpow_add_one₀ two_ne_zero, zpow_natCast, zpow_natCast]
  ring

/-- a natural number with spare bits is an even multiple of its unit -/
theorem eq_mul_unit (hz : 0 < z) (hzp : z < 2 ^ (p - 1)) :
    ∃ k : ℤ, k % 2 = 0 ∧ (z : ℚ) = k * unit p (Nat.log 2 z) := by
  have hlog : Nat.log 2 z < p - 1 := Nat.log_lt_of_lt_pow hz.ne' hzp
  refine ⟨z * 2 ^ (p - 1 - Nat.log 2 z), ?_, ?_⟩
  · rw [Int.mul_emod, two_pow_even (by omega)]
    simp
  · have hone : (1 : ℚ) = ((2 ^ (p - 1 - Nat.log 2 z) : ℤ) : ℚ) * unit p (Nat.log 2 z) := by
      have h := pow_eq_mul_unit (p := p) (e := Nat.log 2 z) (f := 0) (by omega)
      rw [zpow_zero, show (0 - ((Nat.log 2 z : ℤ) + 1 - p)).toNat = p - 1 - Nat.log 2 z by omega] at h
      exact h
    push_cast at hone ⊢
    rw [mul_assoc, ← hone, mul_one]

theorem halfAbove_lt_one (hz : 0 < z) (hzp : z < 2 ^ (p - 1)) : halfAbove p z < 1 := by
  refine (halfAbove_le p hz).trans_lt ?_
  rw [div_lt_one (by positivity)]
  have : z < 2 ^ p := hzp.trans_le (Nat.pow_le_pow_right (by norm_num) (Nat.sub_le p 1))
  exact_mod_cast this

/-- **Rounded up to z at most.** -/
theorem roundTo_le_iff (hx : 0 < x) (hz : 0 < z) (hzp : z < 2 ^ (p - 1)) : roundTo p x ≤ z ↔ x ≤ z + halfAbove p z := by
  have hlog : Nat.log 2 z < p - 1 := Nat.log_lt_of_lt_pow hz.ne' hzp
  have hhalf := halfAbove_pos p z
  have hlow := pow_log_le hz
  have hhigh := add_one_le_pow_log z
  rcases lt_trichotomy (Int.log 2 x) (Nat.log 2 z) with h | h | h
  · -- x lies below the power of two below z
    have hpow : (2 : ℚ) ^ (Int.log 2 x + 1) ≤ 2 ^ (Nat.log 2 z : ℤ) := zpow_le_zpow_right₀ one_le_two h
    have hround := roundTo_le_zpow (p := p) (by omega) hx
    have hlt := lt_zpow_log x
    exact iff_of_true (by linarith) (by linarith)
  · obtain ⟨k, hk, he⟩ := eq_mul_unit hz hzp
    have hunit := unit_log p z
    rw [← h] at he hunit
    rw [he, roundTo_le_mul_iff hx hk, add_mul, hunit]
    ring_nf
  · -- x lies above the power of two above z
    have hpow : (2 : ℚ) ^ (Nat.log 2 z + 1 : ℤ) ≤ 2 ^ Int.log 2 x := zpow_le_zpow_right₀ one_le_two h
    have hround := zpow_le_roundTo (p := p) (by omega) hx
    have hle := zpow_log_le hx
    have hone := halfAbove_lt_one hz hzp
    exact iff_of_false (by linarith) (by linarith)

/-- **Rounded down to z at least.** -/
theorem le_roundTo_iff (hx : 0 < x) (hz : 0 < z) (hzp : z < 2 ^ (p - 1)) : z ≤ roundTo p x ↔ z - halfBelow p z ≤ x := by
  have hlog : Nat.log 2 z < p - 1 := Nat.log_lt_of_lt_pow hz.ne' hzp
  have hhalf := halfBelow_pos p z
  have hhalf' := halfBelow_le p z
  have hlow := pow_log_le hz
  have hhigh := add_one_le_pow_log z
  have hone := halfAbove_lt_one hz hzp
  have hround := zpow_le_roundTo (p := p) (by omega) hx
  have hround' := roundTo_le_zpow (p := p) (by omega) hx
  have hle := zpow_log_le hx
  have hlt := lt_zpow_log x
  rcases lt_trichotomy (Int.log 2 x) (Nat.log 2 z) with h | h | h
  · have hpow : (2 : ℚ) ^ (Int.log 2 x + 1) ≤ 2 ^ (Nat.log 2 z : ℤ) := zpow_le_zpow_right₀ one_le_two h
    by_cases hz2 : z = 2 ^ Nat.log 2 z
    · have hzq : (z : ℚ) = 2 ^ (Nat.log 2 z : ℤ) := by
        rw [zpow_natCast]
        exact_mod_cast hz2
      by_cases hnext : Int.log 2 x + 1 = Nat.log 2 z
      · -- x lies in the interval that ends at z
        have hunit : unit p (Int.log 2 x) = halfAbove p z := by
          have := unit_log p z
          rw [← hnext, unit, show Int.log 2 x + 1 + 1 - (p : ℤ) = Int.log 2 x + 1 - p + 1 by ring,
            zpow_add_one₀ two_ne_zero, ← unit] at this
          linarith
        have hk := pow_eq_mul_unit (p := p) (e := Int.log 2 x) (f := Int.log 2 x + 1) (by omega)
        rw [hzq, ← hnext, hk, mul_le_roundTo_iff hx (two_pow_even (by omega)), halfBelow, if_pos hz2, sub_mul, hunit]
        ring_nf
      · have hhalfz : (2 : ℚ) ^ (Int.log 2 x + 1) ≤ z / 2 := by
          rw [hzq, div_eq_mul_inv, ← zpow_sub_one₀ two_ne_zero]
          exact zpow_le_zpow_right₀ one_le_two (by omega)
        have hquarter : halfAbove p z ≤ z / 4 := by
          refine (halfAbove_le p hz).trans ?_
          have : (2 : ℚ) ^ 2 ≤ 2 ^ p := pow_le_pow_right₀ one_le_two (by omega)
          gcongr
          linarith
        have hzpos : (0 : ℚ) < z := by exact_mod_cast hz
        exact iff_of_false (by linarith) (by linarith)
    · -- an integer lies between the power of two and z
      have hint : 2 ^ Nat.log 2 z + 1 ≤ z := lt_of_le_of_ne (Nat.pow_log_le_self 2 hz.ne') (Ne.symm hz2)
      have hbelow : (2 : ℚ) ^ (Nat.log 2 z : ℤ) + 1 ≤ z := by
        rw [zpow_natCast]
        exact_mod_cast hint
      exact iff_of_false (by linarith) (by linarith)
  · obtain ⟨k, hk, he⟩ := eq_mul_unit hz hzp
    have hunit := unit_log p z
    rw [← h] at he hunit
    by_cases hz2 : z = 2 ^ Nat.log 2 z
    · have hzq : (z : ℚ) = 2 ^ Int.log 2 x := by
        rw [h, zpow_natCast]
        exact_mod_cast hz2
      exact iff_of_true (by linarith) (by linarith)
    · rw [he, mul_le_roundTo_iff hx hk, halfBelow, if_neg hz2, sub_mul, hunit]
      ring_nf
  · have hpow : (2 : ℚ) ^ (Nat.log 2 z + 1 : ℤ) ≤ 2 ^ Int.log 2 x := zpow_le_zpow_right₀ one_le_two h
    exact iff_of_true (by linarith) (by linarith)

theorem roundTo_pos (hp : 1 < p) (hx : 0 < x) : 0 < roundTo p x :=
  lt_of_lt_of_le (by positivity) (zpow_le_roundTo hp hx)

/-- the relative error downwards -/
theorem sub_le_roundTo (hx : 0 < x) : x - x / 2 ^ p ≤ roundTo p x := by
  have hunit := unit_pos p (Int.log 2 x)
  have hhalf : unit p (Int.log 2 x) / 2 ≤ x / 2 ^ p := by
    have heq : unit p (Int.log 2 x) / 2 = 2 ^ Int.log 2 x / 2 ^ p := by
      rw [unit, zpow_sub₀ two_ne_zero, zpow_add_one₀ two_ne_zero, zpow_natCast]
      ring
    rw [heq]
    have := zpow_log_le hx
    gcongr
  have hnear := mul_le_mul_of_nonneg_right (sub_half_le_nearestEven (x / unit p (Int.log 2 x))) hunit.le
  rw [sub_mul, div_mul_cancel₀ _ hunit.ne'] at hnear
  rw [roundTo, if_pos hx]
  linarith

end GraphStreamingCC.Rounding
