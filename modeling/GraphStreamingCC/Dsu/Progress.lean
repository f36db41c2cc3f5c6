/-
The calls of the union-find end, whatever the other threads write.

`find_root` climbs: each turn of its loop goes from a non-root to its parent, which has a higher rank, so the items
above the current one become fewer (`FindPc.weight`). In `merge` the finds only raise the two items, and a
compare-exchange that fails because `parent[b]` is not `b` any more goes on from the parent (`MergePc.weight`). The
weights do not depend on the array, so the writes of other threads do not change them. The one step that can leave them
as large as they were is the spurious failure of `compare_exchange_weak` at an item that is still its own parent
(`MergePc.Spurious`).
-/
import GraphStreamingCC.Dsu.Invariant

namespace GraphStreamingCC.Dsu

open ParentForest

variable {n : ℕ} {β : Type*} [LinearOrder β] {rk : Fin n → β} {p p' : Fin n → Fin n}

/-- how many items have a higher rank -/
def above (rk : Fin n → β) (u : Fin n) : ℕ := (Finset.univ.filter fun v => rk u < rk v).card

theorem above_le {u v : Fin n} (h : rk u ≤ rk v) : above rk v ≤ above rk u := by
  refine Finset.card_le_card fun w hw => ?_
  rw [Finset.mem_filter] at hw ⊢
  exact ⟨hw.1, h.trans_lt hw.2⟩

theorem above_lt {u v : Fin n} (h : rk u < rk v) : above rk v < above rk u := by
  refine Finset.card_lt_card (Finset.ssubset_iff_of_subset (fun w hw => ?_) |>.2 ⟨v, ?_, ?_⟩)
  · rw [Finset.mem_filter] at hw ⊢
    exact ⟨hw.1, h.trans hw.2⟩
  · exact Finset.mem_filter.2 ⟨Finset.mem_univ v, h⟩
  · exact fun hv => lt_irrefl _ (Finset.mem_filter.1 hv).2

theorem above_le_card (rk : Fin n → β) (u : Fin n) : above rk u ≤ n := (Finset.card_le_univ _).trans_eq (Fintype.card_fin n)

/-! ## `find_root` -/

/-- the item that the call has come to -/
def FindPc.cur : FindPc n → Fin n
  | .outer u _ | .inner u _ _ | .right u _ | .halveOuter u | .halveInner u _ | .store u _ | .reload u | .ret u => u

/-- a bound on the operations left in this turn of the loop -/
def FindPc.stage : FindPc n → ℕ
  | .outer _ none => 8
  | .outer _ (some _) | .inner _ _ none => 7
  | .inner _ _ (some _) | .right .. => 6
  | .halveOuter _ => 5
  | .halveInner .. => 4
  | .store .. => 3
  | .reload _ => 2
  | .ret _ => 1

def FindPc.weight (rk : Fin n → β) (f : FindPc n) : ℕ := 9 * above rk f.cur + f.stage

/-- the most that a call of `find_root` can weigh -/
def findBound (n : ℕ) : ℕ := 9 * n + 8

/-- the call has not come below its argument, and moves on only from a non-root -/
structure FindPc.Climbs (rk : Fin n → β) (p : Fin n → Fin n) (u0 : Fin n) (f : FindPc n) : Prop where
  rank : rk u0 ≤ rk f.cur
  moves : ∀ u, f = .reload u → p u ≠ u

theorem FindPc.climbs_start (rk : Fin n → β) (p : Fin n → Fin n) (u : Fin n) : (FindPc.start u).Climbs rk p u :=
  ⟨le_rfl, fun _ h => by cases h⟩

theorem FindPc.Climbs.mono {u0 : Fin n} {f : FindPc n} (h : f.Climbs rk p u0) (hg : Grows p p') : f.Climbs rk p' u0 :=
  ⟨h.rank, fun u hu => hg.moved u (h.moves u hu)⟩

theorem FindPc.weight_start_le (rk : Fin n → β) (u : Fin n) : (FindPc.start u).weight rk ≤ findBound n := by
  have := above_le_card rk u
  simp only [FindPc.start, FindPc.weight, FindPc.cur, FindPc.stage, findBound]
  omega

theorem FindPc.weight_pos (rk : Fin n → β) (f : FindPc n) : 0 < f.weight rk := by
  have hstage : 0 < f.stage := by
    cases f with
    | outer u z | inner u x z => cases z <;> exact Nat.succ_pos _
    | right | halveOuter | halveInner | store | reload | ret => exact Nat.succ_pos _
  exact Nat.add_pos_right _ hstage

theorem FindPc.cur_compare (u y z : Fin n) : (FindPc.compare u y z).cur = u := by
  unfold FindPc.compare
  split_ifs <;> rfl

theorem FindPc.stage_compare (u y z : Fin n) : (FindPc.compare u y z).stage ≤ 5 := by
  unfold FindPc.compare
  split_ifs
  · exact le_rfl
  · exact Nat.succ_le_succ (Nat.zero_le 4)

theorem FindPc.compare_ne_reload (u y z w : Fin n) : FindPc.compare u y z ≠ .reload w := by
  unfold FindPc.compare
  split_ifs <;> exact fun h => by cases h

/-- an operation within a turn of the loop -/
theorem FindPc.climbs_within {u0 : Fin n} {f f' : FindPc n} (h : f.Climbs rk p u0) (hcur : f'.cur = f.cur)
    (hstage : f'.stage < f.stage) (hreload : ∀ u, f' = .reload u → p' u ≠ u) :
    f'.Climbs rk p' u0 ∧ f'.weight rk < f.weight rk := by
  refine ⟨⟨hcur ▸ h.rank, hreload⟩, ?_⟩
  rw [FindPc.weight, FindPc.weight, hcur]
  exact Nat.add_lt_add_left hstage _

/-- **Every operation of `find_root` lowers its weight**, and what it returns is not below its argument -/
theorem FindPc.climbs_step (ho : Ordered rk p) {u0 : Fin n} {f : FindPc n} (h : f.Inv rk p u0) (hc : f.Climbs rk p u0)
    (o : Side) :
    Sum.elim (fun f' => f'.Climbs rk (f.step p o).1 u0 ∧ f'.weight rk < f.weight rk) (fun r => rk u0 ≤ rk r) (f.step p o).2 := by
  have hno : ∀ {g : FindPc n} {q : Fin n → Fin n}, (∀ u, g ≠ .reload u) → ∀ u, g = .reload u → q u ≠ u :=
    fun hg u hu => absurd hu (hg u)
  cases f with
  | outer u z =>
    cases z with
    | none =>
      cases o with
      | left => exact climbs_within hc rfl (show 7 < 8 by decide) (hno fun _ h => by cases h)
      | right => exact climbs_within hc rfl (show 7 < 8 by decide) (hno fun _ h => by cases h)
    | some z => exact climbs_within hc rfl (show 6 < 7 by decide) (hno fun _ h => by cases h)
  | inner u x z =>
    cases z with
    | none =>
      cases o with
      | left => exact climbs_within hc rfl (show 6 < 7 by decide) (hno fun _ h => by cases h)
      | right => exact climbs_within hc rfl (show 6 < 7 by decide) (hno fun _ h => by cases h)
    | some z =>
      exact climbs_within hc (cur_compare ..) (Nat.lt_succ_of_le (stage_compare ..)) (hno (compare_ne_reload u _ z))
  | right u y =>
    exact climbs_within hc (cur_compare ..) (Nat.lt_succ_of_le (stage_compare ..)) (hno (compare_ne_reload u y _))
  | halveOuter u => exact climbs_within hc rfl (show 4 < 5 by decide) (hno fun _ h => by cases h)
  | halveInner u x => exact climbs_within hc rfl (show 3 < 4 by decide) (hno fun _ h => by cases h)
  | store u g =>
    refine climbs_within hc rfl (show 2 < 3 by decide) fun w hw => ?_
    cases hw
    -- the new parent has a higher rank
    simp only [FindPc.step, Function.update_self]
    exact fun he => (he ▸ h.2.2.1).ne rfl
  | reload u =>
    have hne : p u ≠ u := hc.moves u rfl
    have hlt := ho u hne
    refine ⟨⟨hc.rank.trans hlt.le, fun _ h => by cases h⟩, ?_⟩
    have := above_lt hlt
    simp only [FindPc.weight, FindPc.cur, FindPc.stage]
    omega
  | ret u => exact hc.rank.trans (ho.iterate_le 1 u)

/-! ## `merge` -/

/-- the weight of a turn of the loop of `merge` -/
def turnBound (n : ℕ) : ℕ := 2 * findBound n + 4

def MergePc.weight (rk : Fin n → β) : MergePc n → ℕ
  | .loop a b => turnBound n * (above rk a + above rk b) + turnBound n
  | .first _ a b f => turnBound n * (above rk a + above rk b) + (findBound n + 3 + f.weight rk)
  | .second _ a b f => turnBound n * (above rk a + above rk b) + (2 + f.weight rk)
  | .cas a b => turnBound n * (above rk a + above rk b) + 1

/-- the most that a call of `merge` can weigh -/
def mergeBound (n : ℕ) : ℕ := turnBound n * (2 * n) + turnBound n

theorem MergePc.weight_pos (rk : Fin n → β) (m : MergePc n) : 0 < m.weight rk := by
  cases m with
  | loop a b => exact Nat.add_pos_right _ (Nat.succ_pos _)
  | first o a b f => exact Nat.add_pos_right _ (Nat.add_pos_left (Nat.succ_pos _) _)
  | second o a b f => exact Nat.add_pos_right _ (Nat.add_pos_left (Nat.succ_pos _) _)
  | cas a b => exact Nat.succ_pos _

theorem MergePc.weight_start_le (rk : Fin n → β) (a b : Fin n) : (MergePc.loop a b).weight rk ≤ mergeBound n := by
  have ha := above_le_card rk a
  have hb := above_le_card rk b
  have : turnBound n * (above rk a + above rk b) ≤ turnBound n * (2 * n) := Nat.mul_le_mul_left _ (by omega)
  exact Nat.add_le_add_right this _

def MergePc.Climbs (rk : Fin n → β) (p : Fin n → Fin n) : MergePc n → Prop
  | .loop .. | .cas .. => True
  | .first o a b f => f.Climbs rk p (pick o a b)
  | .second o a b f => f.Climbs rk p (pick o.other a b)

theorem MergePc.Climbs.mono {m : MergePc n} (h : m.Climbs rk p) (hg : Grows p p') : m.Climbs rk p' := by
  cases m with
  | loop a b | cas a b => trivial
  | first o a b f => exact FindPc.Climbs.mono h hg
  | second o a b f => exact FindPc.Climbs.mono h hg

/-- the compare-exchange fails although the item is still its own parent -/
def MergePc.Spurious (p : Fin n → Fin n) (o : Side) : MergePc n → Prop
  | .cas _ b => o = .right ∧ p b = b
  | .loop .. | .first .. | .second .. => False

instance (p : Fin n → Fin n) (o : Side) : (m : MergePc n) → Decidable (m.Spurious p o)
  | .cas _ b => inferInstanceAs (Decidable (o = .right ∧ p b = b))
  | .loop .. | .first .. | .second .. => inferInstanceAs (Decidable False)

theorem above_assign {a b r : Fin n} (o : Side) (hr : rk (pick o a b) ≤ rk r) :
    above rk (assign o a b r).1 + above rk (assign o a b r).2 ≤ above rk a + above rk b := by
  cases o with
  | left => exact Nat.add_le_add_right (above_le hr) _
  | right => exact Nat.add_le_add_left (above_le hr) _

variable {priority : Fin n → ℕ}

/-- `order_edge` only swaps -/
theorem MergePc.weight_test (rk : Fin n → β) (p : Fin n → Fin n) {a b : Fin n} {m : MergePc n}
    (h : MergePc.test priority a b = .inl m) : m.Climbs rk p ∧ m.weight rk = turnBound n * (above rk a + above rk b) + 1 := by
  unfold MergePc.test at h
  split_ifs at h with hne
  cases h
  refine ⟨trivial, ?_⟩
  rcases orderEdge_spec priority hne with ⟨he, -⟩ | ⟨he, -⟩ <;> rw [he, MergePc.weight]
  rw [Nat.add_comm (above rk b)]

/-- **Every operation of `merge` lowers its weight**, but for a spurious failure. -/
theorem MergePc.climbs_step (ho : Ordered (rank priority) p) {u v : Fin n} {m m' : MergePc n} (h : m.Inv priority p u v)
    (hc : m.Climbs (rank priority) p) {o : Side} (hs : (m.step priority p o).2 = .inl m') :
    m'.Climbs (rank priority) (m.step priority p o).1 ∧
      (¬ m.Spurious p o → m'.weight (rank priority) < m.weight (rank priority)) := by
  cases m with
  | loop a b =>
    cases hs
    refine ⟨FindPc.climbs_start _ p _, fun _ => ?_⟩
    have := FindPc.weight_start_le (rank priority) (pick o a b)
    simp only [MergePc.weight, turnBound]
    omega
  | first o' a b f =>
    have hf := FindPc.climbs_step ho h.2 hc o
    simp only [MergePc.step] at hs ⊢
    rcases hst : f.step p o with ⟨q, f' | r⟩ <;> rw [hst] at hs hf <;> cases hs
    · exact ⟨hf.1, fun _ => Nat.add_lt_add_left (Nat.add_lt_add_left hf.2 _) _⟩
    · refine ⟨FindPc.climbs_start _ q _, fun _ => ?_⟩
      have hmul : turnBound n * (above (rank priority) (assign o' a b r).1 + above (rank priority) (assign o' a b r).2) ≤
          turnBound n * (above (rank priority) a + above (rank priority) b) := Nat.mul_le_mul_left _ (above_assign o' hf)
      have hstart := FindPc.weight_start_le (rank priority) (pick o'.other (assign o' a b r).1 (assign o' a b r).2)
      simp only [MergePc.weight]
      omega
  | second o' a b f =>
    have hf := FindPc.climbs_step ho h.2 hc o
    simp only [MergePc.step] at hs ⊢
    rcases hst : f.step p o with ⟨q, f' | r⟩ <;> rw [hst] at hs hf
    · cases hs
      exact ⟨hf.1, fun _ => Nat.add_lt_add_left (Nat.add_lt_add_left hf.2 _) _⟩
    · obtain ⟨hclimbs, hweight⟩ := weight_test (rank priority) q hs
      refine ⟨hclimbs, fun _ => ?_⟩
      have hmul := Nat.mul_le_mul_left (turnBound n) (above_assign o'.other hf)
      rw [hweight, MergePc.weight]
      omega
  | cas a b =>
    -- a failure at an item that has got a parent
    have hretry : p b ≠ b → (MergePc.loop a (p b)).weight (rank priority) < (MergePc.cas a b).weight (rank priority) := by
      intro hb
      have hlt := above_lt (ho b hb)
      have hmul : turnBound n * (above (rank priority) a + above (rank priority) (p b) + 1) ≤
          turnBound n * (above (rank priority) a + above (rank priority) b) := Nat.mul_le_mul_left _ (by omega)
      rw [Nat.mul_succ] at hmul
      exact Nat.lt_succ_of_le hmul
    cases o with
    | left =>
      simp only [MergePc.step] at hs ⊢
      split_ifs at hs ⊢ with hb
      cases hs
      exact ⟨trivial, fun _ => hretry hb⟩
    | right =>
      cases hs
      exact ⟨trivial, fun hns => hretry fun hb => hns ⟨rfl, hb⟩⟩

end GraphStreamingCC.Dsu
