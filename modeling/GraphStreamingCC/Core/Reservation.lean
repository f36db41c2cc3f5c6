/-
A sort into groups by reserved slots, independent of who reserves them.

A party reserves the slots for a block of items by adding their number to the counter of the group, and keeps the old
value of the counter as the offset of the block (`Reserved.add`). The groups are then laid out one after another: a slot
has its place behind all smaller groups, at its offset. In whichever order the blocks were reserved, the places are the
numbers below the number of items, each once (`Reserved.map_place`), and ascend with the groups
(`Reserved.place_lt_place`).
-/
import Mathlib.Tactic
import Mathlib.Algebra.BigOperators.Group.Finset.Basic

namespace GraphStreamingCC.Reservation

variable {κ ι : Type*}

structure Slot (κ ι : Type*) where
  group : κ
  item : ι
  offset : ℕ

/-- the slots of a block of items, from this offset on -/
def block (k : κ) (items : List ι) (offset : ℕ) : List (Slot κ ι) := (items.zipIdx offset).map fun x => ⟨k, x.1, x.2⟩

@[simp] theorem block_nil (k : κ) (offset : ℕ) : block k ([] : List ι) offset = [] := rfl

@[simp] theorem block_cons (k : κ) (a : ι) (items : List ι) (offset : ℕ) :
    block k (a :: items) offset = ⟨k, a, offset⟩ :: block k items (offset + 1) := rfl

theorem mem_block {k : κ} {items : List ι} {offset : ℕ} {x : Slot κ ι} (hx : x ∈ block k items offset) :
    x.group = k ∧ offset ≤ x.offset ∧ x.offset < offset + items.length := by
  induction items generalizing offset with
  | nil => cases hx
  | cons a items ih =>
    rw [block_cons, List.mem_cons] at hx
    rw [List.length_cons]
    rcases hx with rfl | hx
    · exact ⟨rfl, le_rfl, Nat.lt_add_of_pos_right (Nat.succ_pos _)⟩
    · obtain ⟨h1, h2, h3⟩ := ih hx
      exact ⟨h1, by omega, by omega⟩

theorem nodup_block (k : κ) (items : List ι) (offset : ℕ) :
    ((block k items offset).map fun x => (x.group, x.offset)).Nodup := by
  induction items generalizing offset with
  | nil => exact List.nodup_nil
  | cons a items ih =>
    rw [block_cons, List.map_cons, List.nodup_cons]
    refine ⟨fun hmem => ?_, ih (offset + 1)⟩
    obtain ⟨x, hx, he⟩ := List.mem_map.1 hmem
    have hge := (mem_block hx).2.1
    rw [(Prod.mk.inj he).2] at hge
    exact absurd hge (Nat.not_succ_le_self offset)

theorem block_items (k : κ) (items : List ι) (offset : ℕ) : (block k items offset).map Slot.item = items := by
  induction items generalizing offset with
  | nil => rfl
  | cons a items ih => rw [block_cons, List.map_cons, ih]

section reserve

variable [DecidableEq κ] {count : κ → ℕ} {M : Multiset (Slot κ ι)}

/-- the slots of each group are the numbers below its counter, each at most once -/
structure Reserved (count : κ → ℕ) (M : Multiset (Slot κ ι)) : Prop where
  counted : ∀ k, M.countP (fun x => x.group = k) = count k
  below : ∀ x ∈ M, x.offset < count x.group
  distinct : (M.map fun x => (x.group, x.offset)).Nodup

theorem Reserved.zero : Reserved (fun _ => 0) (0 : Multiset (Slot κ ι)) where
  counted _ := rfl
  below x hx := absurd hx (Multiset.notMem_zero x)
  distinct := Multiset.nodup_zero

theorem countP_block (k k' : κ) (items : List ι) (offset : ℕ) :
    (block k items offset).countP (fun x => x.group = k') = if k = k' then items.length else 0 := by
  induction items generalizing offset with
  | nil => simp
  | cons a items ih =>
    rw [block_cons, List.countP_cons, ih, List.length_cons]
    split_ifs with h1 h2 h2 <;> simp_all

/-- **A block is reserved** -/
theorem Reserved.add (h : Reserved count M) (k : κ) (items : List ι) :
    Reserved (Function.update count k (count k + items.length)) (M + (block k items (count k) : Multiset (Slot κ ι))) where
  counted k' := by
    rw [Multiset.countP_add, h.counted, Multiset.coe_countP, countP_block]
    by_cases hk : k = k'
    · rw [if_pos hk, ← hk, Function.update_self]
    · rw [if_neg hk, Function.update_of_ne (Ne.symm hk), Nat.add_zero]
  below x hx := by
    rcases Multiset.mem_add.1 hx with hx | hx
    · have hlt := h.below x hx
      by_cases hk : x.group = k
      · rw [hk, Function.update_self]
        rw [hk] at hlt
        omega
      · rw [Function.update_of_ne hk]
        exact hlt
    · obtain ⟨rfl, -, hlt⟩ := mem_block (Multiset.mem_coe.1 hx)
      rwa [Function.update_self]
  distinct := by
    rw [Multiset.map_add, Multiset.nodup_add]
    refine ⟨h.distinct, nodup_block k items (count k), ?_⟩
    rw [Multiset.disjoint_left]
    intro p hp hp'
    obtain ⟨x, hx, rfl⟩ := Multiset.mem_map.1 hp
    obtain ⟨y, hy, he⟩ := Multiset.mem_map.1 hp'
    -- the old offsets are below the counter, the new ones are not
    obtain ⟨hk, hge, -⟩ := mem_block (Multiset.mem_coe.1 hy)
    obtain ⟨hgroup, hoffset⟩ := Prod.mk.inj he
    have hlt := h.below x hx
    rw [← hgroup, hk] at hlt
    omega

theorem sum_countP [Fintype κ] (M : Multiset (Slot κ ι)) : ∑ k, M.countP (fun x => x.group = k) = M.card := by
  induction M using Multiset.induction_on with
  | empty => simp
  | cons x M ih => simp [Multiset.countP_cons, Finset.sum_add_distrib, ih]

theorem Reserved.sum_count [Fintype κ] (h : Reserved count M) : ∑ k, count k = M.card := by
  rw [← sum_countP M]
  exact Finset.sum_congr rfl fun k _ => (h.counted k).symm

end reserve

/-! ## The layout -/

variable [LinearOrder κ] [Fintype κ] {count : κ → ℕ} {M : Multiset (Slot κ ι)}

/-- where the group begins -/
def base (count : κ → ℕ) (k : κ) : ℕ := ∑ k' with k' < k, count k'

def place (count : κ → ℕ) (x : Slot κ ι) : ℕ := base count x.group + x.offset

theorem base_add_le {k k' : κ} (count : κ → ℕ) (h : k < k') : base count k + count k ≤ base count k' := by
  rw [base, base, add_comm, ← Finset.sum_insert (f := count) (a := k) (by simp)]
  refine Finset.sum_le_sum_of_subset fun j hj => ?_
  simp only [Finset.mem_insert, Finset.mem_filter, Finset.mem_univ, true_and] at hj ⊢
  rcases hj with rfl | hj
  · exact h
  · exact hj.trans h

theorem base_add_le_sum (count : κ → ℕ) (k : κ) : base count k + count k ≤ ∑ k', count k' := by
  rw [base, add_comm, ← Finset.sum_insert (f := count) (a := k) (by simp)]
  exact Finset.sum_le_sum_of_subset (Finset.subset_univ _)

theorem Reserved.place_lt_place (h : Reserved count M) {x y : Slot κ ι} (hx : x ∈ M) (hlt : x.group < y.group) :
    place count x < place count y := by
  have := h.below x hx
  have := base_add_le count hlt
  rw [place, place]
  omega

theorem Reserved.place_lt (h : Reserved count M) {x : Slot κ ι} (hx : x ∈ M) : place count x < M.card := by
  have := h.below x hx
  have := base_add_le_sum count x.group
  rw [h.sum_count] at this
  rw [place]
  omega

theorem Reserved.place_inj (h : Reserved count M) {x y : Slot κ ι} (hx : x ∈ M) (hy : y ∈ M)
    (he : place count x = place count y) : (x.group, x.offset) = (y.group, y.offset) := by
  rcases lt_trichotomy x.group y.group with hlt | hgroup | hlt
  · exact absurd he (h.place_lt_place hx hlt).ne
  · rw [place, place, hgroup] at he
    rw [hgroup, Nat.add_left_cancel he]
  · exact absurd he (h.place_lt_place hy hlt).ne'

/-- two slots with one place are one slot of the multiset -/
theorem Reserved.eq_of_place (h : Reserved count M) {x y : Slot κ ι} (hx : x ∈ M) (hy : y ∈ M)
    (he : place count x = place count y) : x = y :=
  Multiset.inj_on_of_nodup_map h.distinct x hx y hy (h.place_inj hx hy he)

/-- **The places** are the numbers below the number of slots, each once -/
theorem Reserved.map_place (h : Reserved count M) : M.map (place count) = Multiset.range M.card := by
  have hnodup : (M.map (place count)).Nodup :=
    (Multiset.Nodup.of_map _ h.distinct).map_on fun x hx y hy he => h.eq_of_place hx hy he
  refine Multiset.eq_of_le_of_card_le ((Multiset.le_iff_subset hnodup).2 fun p hp => ?_) (by simp)
  obtain ⟨x, hx, rfl⟩ := Multiset.mem_map.1 hp
  exact Multiset.mem_range.2 (h.place_lt hx)

theorem Reserved.exists_place (h : Reserved count M) {p : ℕ} (hp : p < M.card) : ∃ x ∈ M, place count x = p :=
  Multiset.mem_map.1 (h.map_place ▸ Multiset.mem_range.2 hp)

end GraphStreamingCC.Reservation
