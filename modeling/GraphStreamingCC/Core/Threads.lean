/-
Families of thread states, independent of what the threads do: how a sum or a count over all threads changes when one
thread moves.
-/
import Mathlib.Tactic
import Mathlib.Algebra.BigOperators.Group.Finset.Basic

namespace GraphStreamingCC.Threads

section

variable {ι α : Type*} [DecidableEq ι]

/-- what holds of every thread holds after one of them has moved to `x`, if it holds there -/
theorem forall_update {w : ι → α} {Q : ι → α → Prop} {i : ι} {x : α} (h : ∀ j, Q j (w j)) (hx : Q i x) :
    ∀ j, Q j (Function.update w i x j) :=
  (Function.forall_update_iff w _).2 ⟨hx, fun j _ => h j⟩

/-- what the move leaves alone in one of them, it leaves alone in all -/
theorem apply_update {β : Type*} (f : α → β) {w : ι → α} {i : ι} {x : α} (hx : f x = f (w i)) (j : ι) :
    f (Function.update w i x j) = f (w j) :=
  forall_update (Q := fun j y => f y = f (w j)) (fun _ => rfl) hx j

end

variable {ι α M : Type*} [Fintype ι] [DecidableEq ι] [AddCommMonoid M]

/-- only thread i's share changes: its old share leaves the sum and its new one enters -/
theorem sum_move {f g : ι → M} {i : ι} (h : ∀ j, j ≠ i → g j = f j) : ∑ j, g j + f i = ∑ j, f j + g i := by
  rw [← Finset.add_sum_erase _ g (Finset.mem_univ i), ← Finset.add_sum_erase _ f (Finset.mem_univ i),
    Finset.sum_congr rfl fun j hj => h j (Finset.ne_of_mem_erase hj)]
  abel

/-- one thread moves from `w i` to `x` -/
theorem sum_update (f : α → M) (w : ι → α) (i : ι) (x : α) :
    ∑ j, f (Function.update w i x j) + f (w i) = ∑ j, f (w j) + f x := by
  have h := sum_move (f := fun j => f (w j)) (g := fun j => f (Function.update w i x j)) (i := i)
    fun j hj => by rw [Function.update_of_ne hj]
  simpa only [Function.update_self] using h

/-- if only one share changes and becomes less, so does the sum -/
theorem sum_lt {f g : ι → ℕ} {i : ι} (h : ∀ j, j ≠ i → g j = f j) (hlt : g i < f i) : ∑ j, g j < ∑ j, f j := by
  have := sum_move h
  omega

omit [DecidableEq ι] in
/-- a share is at most the sum -/
theorem le_sum (f : ι → ℕ) (i : ι) : f i ≤ ∑ j, f j := Finset.single_le_sum_of_canonicallyOrdered (Finset.mem_univ i)

/-- and so are two shares together -/
theorem add_le_sum (f : ι → ℕ) {i j : ι} (hne : i ≠ j) : f i + f j ≤ ∑ k, f k := by
  calc f i + f j = ∑ k ∈ {i, j}, f k := (Finset.sum_pair hne).symm
    _ ≤ ∑ k, f k := Finset.sum_le_univ_sum_of_nonneg fun _ => Nat.zero_le _

/-- the two threads, or vertices, of a small example -/
abbrev fst : Fin 2 := 0

abbrev snd : Fin 2 := 1

/-- thread, or vertex, k of a small example -/
def nth {m : ℕ} (k : ℕ) : Fin (m + 1) := ⟨k % (m + 1), Nat.mod_lt k m.succ_pos⟩

end GraphStreamingCC.Threads
