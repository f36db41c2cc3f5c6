/-
Parent forests under a rank, independent of any program.

`p : α → α` is a parent function; a fixed point is a root. `Ordered rank p`: every non-root has a parent of strictly
greater rank. Then following parents ends after at most `Fintype.card α` steps, in `root p u`, and `Same p u v` (equal
roots) is the partition the forest stands for.

Three ways one write can change the forest are all that a union-find structure needs:
- nothing changes;
- a halving write: the parent of a non-root `u` becomes some `g` of the same set with a greater rank (`g` need not be
  the current grandparent: a stale one will do). Roots, and so the partition, stay as they are (`Quiet.root_eq`);
- a linking write: a root `b` gets a parent `a` of greater rank. Exactly the two sets are united (`Links.same_iff`).
`Grows` is what every later write keeps of an earlier observation: equal sets stay equal and a non-root stays one.
-/
import Mathlib.Tactic
import Mathlib.Logic.Function.Iterate
import Mathlib.Data.Fintype.Card

namespace GraphStreamingCC.ParentForest

variable {α β : Type*} [LinearOrder β] {rank : α → β} {p p' : α → α}

/-! ## Ordered forests and their roots -/

/-- every non-root has a parent of strictly greater rank -/
def Ordered (rank : α → β) (p : α → α) : Prop := ∀ u, p u ≠ u → rank u < rank (p u)

theorem Ordered.iterate_le (ho : Ordered rank p) (k : ℕ) (u : α) : rank u ≤ rank (p^[k] u) := by
  induction k generalizing u with
  | zero => exact le_rfl
  | succ k ih =>
    rw [Function.iterate_succ_apply]
    by_cases hu : p u = u
    · rw [hu]; exact ih u
    · exact (ho u hu).le.trans (ih (p u))

/-- the only cycles of an ordered forest are its roots -/
theorem Ordered.acyclic (ho : Ordered rank p) {k : ℕ} (hk : 0 < k) {u : α} (h : p^[k] u = u) : p u = u := by
  by_contra hu
  obtain ⟨j, rfl⟩ := Nat.exists_eq_succ_of_ne_zero hk.ne'
  have h1 := ho u hu
  have h2 := ho.iterate_le j (p u)
  rw [Function.iterate_succ_apply] at h
  rw [h] at h2
  exact absurd (h1.trans_le h2) (lt_irrefl _)

variable [Fintype α]

/-- the end of the parent chain of `u`: `card α` steps always reach it when `p` is ordered -/
def root (p : α → α) (u : α) : α := p^[Fintype.card α] u

/-- the partition a parent function stands for -/
def Same (p : α → α) (u v : α) : Prop := root p u = root p v

instance [DecidableEq α] (p : α → α) (u v : α) : Decidable (Same p u v) :=
  inferInstanceAs (Decidable (root p u = root p v))

@[refl] theorem Same.refl (p : α → α) (u : α) : Same p u u := rfl

@[symm] theorem Same.symm {u v : α} (h : Same p u v) : Same p v u := Eq.symm h

@[trans] theorem Same.trans {u v w : α} (h1 : Same p u v) (h2 : Same p v w) : Same p u w := Eq.trans h1 h2

theorem root_of_fixed {u : α} (h : p u = u) : root p u = u := Function.iterate_fixed h _

/-- the chain from `u` stops within `card α` steps: until it does, it only visits new items -/
theorem Ordered.root_fixed (ho : Ordered rank p) (u : α) : p (root p u) = root p u := by
  by_contra hne
  have hmove : ∀ k ≤ Fintype.card α, p (p^[k] u) ≠ p^[k] u := by
    intro k hk hfix
    apply hne
    obtain ⟨j, hj⟩ := Nat.exists_eq_add_of_le hk
    have : root p u = p^[k] u := by
      rw [root, hj, Nat.add_comm, Function.iterate_add_apply]
      exact Function.iterate_fixed hfix j
    rw [this]; exact hfix
  have hlt : ∀ j k, j < k → k ≤ Fintype.card α → rank (p^[j] u) < rank (p^[k] u) := by
    intro j k hjk hk
    obtain ⟨d, rfl⟩ := Nat.exists_eq_add_of_lt hjk
    have h1 := ho _ (hmove j (by omega))
    have h2 := ho.iterate_le d (p (p^[j] u))
    rw [show j + d + 1 = d + 1 + j by omega, Function.iterate_add_apply, Function.iterate_succ_apply]
    exact h1.trans_le h2
  have hinj : Function.Injective fun k : Fin (Fintype.card α + 1) => p^[k.val] u := by
    intro j k hjk
    simp only at hjk
    rcases lt_trichotomy j.val k.val with h | h | h
    · have := hlt _ _ h (by omega); rw [hjk] at this; exact absurd this (lt_irrefl _)
    · exact Fin.ext h
    · have := hlt _ _ h (by omega); rw [hjk] at this; exact absurd this (lt_irrefl _)
  have := Fintype.card_le_of_injective _ hinj
  simp at this

theorem Ordered.root_parent (ho : Ordered rank p) (u : α) : root p (p u) = root p u := by
  have h : root p (p u) = p (root p u) := by
    simp only [root, ← Function.iterate_succ_apply, Function.iterate_succ_apply']
  rw [h, ho.root_fixed]

theorem Ordered.same_parent (ho : Ordered rank p) (u : α) : Same p (p u) u := ho.root_parent u

theorem Ordered.same_root (ho : Ordered rank p) (u : α) : Same p (root p u) u := root_of_fixed (ho.root_fixed u)

theorem Ordered.rank_le_root (ho : Ordered rank p) (u : α) : rank u ≤ rank (root p u) := ho.iterate_le _ u

/-- induction along the parent chain: from the roots down -/
theorem Ordered.root_induction (ho : Ordered rank p) {P : α → Prop} (hroot : ∀ r, p r = r → P r)
    (hstep : ∀ u, p u ≠ u → P (p u) → P u) (u : α) : P u := by
  have hend : ∀ k u, p (p^[k] u) = p^[k] u → P u := by
    intro k
    induction k with
    | zero => intro u hu; exact hroot u hu
    | succ k ih =>
      intro u hu
      by_cases h : p u = u
      · exact hroot u h
      · exact hstep u h (ih (p u) hu)
  exact hend _ u (ho.root_fixed u)

/-- a function that is constant along parent links and fixes the roots is `root` -/
theorem Ordered.root_unique (ho : Ordered rank p) {f : α → α} (hroot : ∀ r, p r = r → f r = r)
    (hstep : ∀ u, f (p u) = f u) (u : α) : root p u = f u := by
  induction u using ho.root_induction with
  | hroot r hr => rw [root_of_fixed hr, hroot r hr]
  | hstep u _ ih => rw [← ho.root_parent, ih, hstep]

/-! ## What one write can do -/

/-- observations that every later write keeps -/
structure Grows (p p' : α → α) : Prop where
  same : ∀ u v, Same p u v → Same p' u v
  moved : ∀ u, p u ≠ u → p' u ≠ u

theorem Grows.refl (p : α → α) : Grows p p := ⟨fun _ _ h => h, fun _ h => h⟩

variable [DecidableEq α]

/-- no write, or a halving write: a non-root `u` gets a parent of the same set and of greater rank -/
def Quiet (rank : α → β) (p p' : α → α) : Prop :=
  p' = p ∨ ∃ u g, p u ≠ u ∧ rank u < rank g ∧ Same p g u ∧ p' = Function.update p u g

/-- a linking write between the sets of `u` and `v`: the root `b` of one gets a parent `a` of the other -/
def Links (rank : α → β) (p p' : α → α) (u v : α) : Prop :=
  ∃ a b, p b = b ∧ rank b < rank a ∧ (Same p a u ∧ Same p b v ∨ Same p a v ∧ Same p b u) ∧
    p' = Function.update p b a

omit [Fintype α] in
theorem Ordered.update (ho : Ordered rank p) {u g : α} (hr : rank u < rank g) :
    Ordered rank (Function.update p u g) := by
  intro w hw
  by_cases h : w = u
  · subst h; rwa [Function.update_self]
  · rw [Function.update_of_ne h] at hw ⊢; exact ho w hw

theorem Quiet.refl (rank : α → β) (p : α → α) : Quiet rank p p := Or.inl rfl

theorem Quiet.ordered (ho : Ordered rank p) (h : Quiet rank p p') : Ordered rank p' := by
  rcases h with rfl | ⟨u, g, -, hr, -, rfl⟩
  · exact ho
  · exact ho.update hr

/-- **Halving changes no root**, also when the new parent is a stale one. -/
theorem Quiet.root_eq (ho : Ordered rank p) (h : Quiet rank p p') (w : α) : root p' w = root p w := by
  have ho' := h.ordered ho
  rcases h with rfl | ⟨u, g, hu, hr, hs, rfl⟩
  · rfl
  · refine ho'.root_unique (f := root p) (fun r hfix => ?_) (fun w => ?_) w
    · by_cases h : r = u
      · subst h; rw [Function.update_self] at hfix; rw [hfix] at hr; exact absurd hr (lt_irrefl _)
      · rw [Function.update_of_ne h] at hfix; exact root_of_fixed hfix
    · by_cases h : w = u
      · subst h; rw [Function.update_self]; exact hs
      · rw [Function.update_of_ne h]; exact ho.root_parent w

theorem Quiet.same_iff (ho : Ordered rank p) (h : Quiet rank p p') (u v : α) : Same p' u v ↔ Same p u v := by
  simp only [Same, h.root_eq ho]

theorem Quiet.grows (ho : Ordered rank p) (h : Quiet rank p p') : Grows p p' := by
  refine ⟨fun u v hs => (h.same_iff ho u v).2 hs, fun w hw => ?_⟩
  rcases h with rfl | ⟨u, g, -, hr, -, rfl⟩
  · exact hw
  · by_cases h : w = u
    · subst h; rw [Function.update_self]; rintro rfl; exact absurd hr (lt_irrefl _)
    · rwa [Function.update_of_ne h]

theorem Links.ordered (ho : Ordered rank p) {u v : α} (h : Links rank p p' u v) : Ordered rank p' := by
  obtain ⟨a, b, -, hr, -, rfl⟩ := h
  exact ho.update hr

/-- a link is only made between different sets: the root above `a` outranks `b` -/
theorem Links.not_same (ho : Ordered rank p) {u v : α} (h : Links rank p p' u v) : ¬ Same p u v := by
  obtain ⟨a, b, hb, hr, hab, rfl⟩ := h
  intro huv
  have hsame : Same p a b := by
    rcases hab with ⟨ha, hb⟩ | ⟨ha, hb⟩
    · exact ha.trans (huv.trans hb.symm)
    · exact ha.trans (huv.symm.trans hb.symm)
  have hroot : root p a = b := (show root p a = root p b from hsame).trans (root_of_fixed hb)
  have := ho.rank_le_root a
  rw [hroot] at this
  exact absurd (hr.trans_le this) (lt_irrefl _)

/-- after a link, the set of `b` has the root of the set of `a`, and no other root has changed -/
theorem Links.root_eq (ho : Ordered rank p) {a b : α} (hb : p b = b) (hr : rank b < rank a) (w : α) :
    root (Function.update p b a) w = if root p w = b then root p a else root p w := by
  have hab : root p a ≠ b := by
    intro h
    have := ho.rank_le_root a
    rw [h] at this
    exact absurd (hr.trans_le this) (lt_irrefl _)
  refine (ho.update hr).root_unique (f := fun w => if root p w = b then root p a else root p w)
    (fun r hfix => ?_) (fun w => ?_) w
  · by_cases h : r = b
    · subst h; rw [Function.update_self] at hfix; rw [hfix] at hr; exact absurd hr (lt_irrefl _)
    · rw [Function.update_of_ne h] at hfix; rw [root_of_fixed hfix, if_neg h]
  · by_cases h : w = b
    · subst h; rw [Function.update_self, root_of_fixed hb, if_neg hab, if_pos rfl]
    · rw [Function.update_of_ne h, ho.root_parent]

/-- **A link unites exactly the two sets.** -/
theorem Links.same_iff (ho : Ordered rank p) {u v : α} (h : Links rank p p' u v) (x y : α) :
    Same p' x y ↔ Same p x y ∨ (Same p x u ∧ Same p y v) ∨ (Same p x v ∧ Same p y u) := by
  have hne := h.not_same ho
  obtain ⟨a, b, hb, hr, hab, rfl⟩ := h
  have hroot := root_of_fixed hb
  simp only [Same, Links.root_eq ho hb hr] at hab hne ⊢
  rw [hroot] at hab
  rcases hab with ⟨ha, hb'⟩ | ⟨ha, hb'⟩ <;> rw [ha, hb'] <;> split_ifs with h1 h2 h2 <;> grind

theorem Links.grows (ho : Ordered rank p) {u v : α} (h : Links rank p p' u v) : Grows p p' := by
  refine ⟨fun x y hs => (h.same_iff ho x y).2 (Or.inl hs), fun w hw => ?_⟩
  obtain ⟨a, b, -, hr, -, rfl⟩ := h
  by_cases h : w = b
  · subst h; rw [Function.update_self]; rintro rfl; exact absurd hr (lt_irrefl _)
  · rwa [Function.update_of_ne h]

/-- a link makes one root less -/
theorem Links.card_roots {u v : α} (h : Links rank p p' u v) :
    (Finset.univ.filter fun w => p' w = w).card + 1 = (Finset.univ.filter fun w => p w = w).card := by
  obtain ⟨a, b, hb, hr, -, rfl⟩ := h
  have hab : a ≠ b := by rintro rfl; exact absurd hr (lt_irrefl _)
  have herase : (Finset.univ.filter fun w => Function.update p b a w = w) =
      (Finset.univ.filter fun w => p w = w).erase b := by
    ext w
    simp only [Finset.mem_filter, Finset.mem_univ, true_and, Finset.mem_erase]
    by_cases h : w = b
    · subst h; simp [hab]
    · simp [h]
  rw [herase]
  exact Finset.card_erase_add_one (by simp [hb])

theorem Quiet.card_roots (ho : Ordered rank p) (h : Quiet rank p p') :
    (Finset.univ.filter fun w => p' w = w).card = (Finset.univ.filter fun w => p w = w).card := by
  have hiff : ∀ w, p' w = w ↔ p w = w := fun w => by
    refine ⟨fun hw => ?_, fun hw => ?_⟩
    · by_contra hne; exact (h.grows ho).moved w hne hw
    · have := (h.ordered ho).root_fixed w
      rwa [h.root_eq ho, root_of_fixed hw] at this
  simp only [hiff]

end GraphStreamingCC.ParentForest
