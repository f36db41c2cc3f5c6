/-
What a call of the concurrent union-find knows between two of its atomic operations.

`FindPc.Inv` and `MergePc.Inv` state it against the current array, for arbitrary other threads: each fact is an equality
of sets, a comparison of ranks, or a conditional "if u is still a root, then the value loaded from it was u itself".
All of these survive every later write (`FindPc.Inv.mono`, `MergePc.Inv.mono`), so a machine that contains calls in
progress has to look only at the call that makes the step:
- `FindPc.step_spec`: a step of `find_root` writes nothing or halves a path, and a returned item is in the set of the
  argument. It need NOT be the root of that set: see `Dsu.Race`;
- `MergePc.step_spec`: a step of `merge` writes nothing, halves a path, or links the two sets and returns true; it
  returns false only when the two items are in one set.
-/
import GraphStreamingCC.Dsu.Model

namespace GraphStreamingCC.Dsu

open ParentForest

variable {n : ℕ} {β : Type*} [LinearOrder β] {rk : Fin n → β} {p p' : Fin n → Fin n}

/-! ## `find_root` -/

/-- what a `find_root` call with argument `u0` knows -/
def FindPc.Inv (rk : Fin n → β) (p : Fin n → Fin n) (u0 : Fin n) : FindPc n → Prop
  | .outer u z => Same p u u0 ∧ ∀ z' ∈ z, p u = u → z' = u
  | .inner u x z => Same p u u0 ∧ (p u = u → x = u) ∧ ∀ z' ∈ z, p u = u → z' = u
  | .right u y => Same p u u0 ∧ (p u = u → y = u)
  | .halveOuter u => Same p u u0 ∧ p u ≠ u
  | .halveInner u x => Same p u u0 ∧ p u ≠ u ∧ rk u < rk x ∧ Same p x u
  | .store u g => Same p u u0 ∧ p u ≠ u ∧ rk u < rk g ∧ Same p g u
  | .reload u => Same p u u0
  | .ret u => Same p u u0

theorem FindPc.inv_start (rk : Fin n → β) (p : Fin n → Fin n) (u : Fin n) : (FindPc.start u).Inv rk p u :=
  ⟨Same.refl p u, by simp⟩

theorem FindPc.Inv.mono {u0 : Fin n} {f : FindPc n} (h : f.Inv rk p u0) (hg : Grows p p') : f.Inv rk p' u0 := by
  have hfix : ∀ u, p' u = u → p u = u := fun u hu => by_contra fun hne => hg.moved u hne hu
  cases f with
  | outer u z => exact ⟨hg.same _ _ h.1, fun z' hz hu => h.2 z' hz (hfix u hu)⟩
  | inner u x z => exact ⟨hg.same _ _ h.1, fun hu => h.2.1 (hfix u hu), fun z' hz hu => h.2.2 z' hz (hfix u hu)⟩
  | right u y => exact ⟨hg.same _ _ h.1, fun hu => h.2 (hfix u hu)⟩
  | halveOuter u => exact ⟨hg.same _ _ h.1, hg.moved u h.2⟩
  | halveInner u x => exact ⟨hg.same _ _ h.1, hg.moved u h.2.1, h.2.2.1, hg.same _ _ h.2.2.2⟩
  | store u g => exact ⟨hg.same _ _ h.1, hg.moved u h.2.1, h.2.2.1, hg.same _ _ h.2.2.2⟩
  | reload u => exact hg.same _ _ h
  | ret u => exact hg.same _ _ h

/-- the loop body is only entered at a non-root: at a root both operands would have been the root itself -/
theorem FindPc.inv_compare {u0 u y z : Fin n} (hu : Same p u u0) (hy : p u = u → y = u) (hz : p u = u → z = u) :
    (FindPc.compare u y z).Inv rk p u0 := by
  unfold FindPc.compare
  split_ifs with hne
  · exact ⟨hu, fun hfix => hne ((hy hfix).trans (hz hfix).symm)⟩
  · exact hu

theorem FindPc.step_spec (ho : Ordered rk p) {u0 : Fin n} {f : FindPc n} (h : f.Inv rk p u0) (o : Side) :
    Quiet rk p (f.step p o).1 ∧
      Sum.elim (fun f' => f'.Inv rk (f.step p o).1 u0) (fun r => Same (f.step p o).1 r u0) (f.step p o).2 := by
  cases f with
  | outer u z =>
    have hx : p u = u → p u = u := id
    cases z with
    | none =>
      cases o with
      | left => exact ⟨Quiet.refl rk p, h.1, hx, by simp⟩
      | right => exact ⟨Quiet.refl rk p, h.1, fun z' hz hu => (Option.some.inj hz).symm.trans hu⟩
    | some z => exact ⟨Quiet.refl rk p, h.1, hx, h.2⟩
  | inner u x z =>
    have hy : p u = u → p x = u := fun hu => by rw [h.2.1 hu, hu]
    cases z with
    | none =>
      cases o with
      | left => exact ⟨Quiet.refl rk p, h.1, hy⟩
      | right => exact ⟨Quiet.refl rk p, h.1, h.2.1, fun z' hz hu => (Option.some.inj hz).symm.trans hu⟩
    | some z => exact ⟨Quiet.refl rk p, FindPc.inv_compare h.1 hy (h.2.2 z rfl)⟩
  | right u y => exact ⟨Quiet.refl rk p, FindPc.inv_compare h.1 h.2 id⟩
  | halveOuter u => exact ⟨Quiet.refl rk p, h.1, h.2, ho u h.2, ho.same_parent u⟩
  | halveInner u x =>
    obtain ⟨hu, hne, hr, hx⟩ := h
    exact ⟨Quiet.refl rk p, hu, hne, hr.trans_le (ho.iterate_le 1 x), (ho.same_parent x).trans hx⟩
  | store u g =>
    obtain ⟨hu, hne, hr, hg⟩ := h
    have hq : Quiet rk p (Function.update p u g) := Or.inr ⟨u, g, hne, hr, hg, rfl⟩
    exact ⟨hq, (hq.same_iff ho u u0).2 hu⟩
  | reload u => exact ⟨Quiet.refl rk p, (ho.same_parent u).trans h, by simp⟩
  | ret u => exact ⟨Quiet.refl rk p, (ho.same_parent u).trans h⟩

/-- what a `find_root` call knows when no other thread writes while it runs -/
def FindPc.Exact (p : Fin n → Fin n) : FindPc n → Prop
  | .outer u z => ∀ z' ∈ z, z' = p u
  | .inner u x z => x = p u ∧ ∀ z' ∈ z, z' = p u
  | .right u y => y = p (p u)
  | .ret u => p (p u) = p u
  | _ => True

/-- the value that the call is about to return, if it is, is a root -/
def FindPc.FinalLoad (p : Fin n → Fin n) : FindPc n → Prop
  | .ret u => p (p u) = p u
  | _ => True

instance (p : Fin n → Fin n) : (f : FindPc n) → Decidable (f.FinalLoad p)
  | .ret u => inferInstanceAs (Decidable (p (p u) = p u))
  | .outer .. | .inner .. | .right .. | .halveOuter .. | .halveInner .. | .store .. | .reload .. =>
    inferInstanceAs (Decidable True)

theorem FindPc.Exact.finalLoad {f : FindPc n} (h : f.Exact p) : f.FinalLoad p := by
  cases f <;> first | exact h | trivial

/-- alone, `find_root` only leaves its loop below a root -/
theorem FindPc.exact_step {f : FindPc n} (h : f.Exact p) (o : Side) {f' : FindPc n}
    (hs : f.step p o = (p', .inl f')) : f'.Exact p' := by
  have hcmp : ∀ u y z, y = p (p u) → z = p u → (FindPc.compare u y z).Exact p := by
    intro u y z hy hz
    unfold FindPc.compare
    split_ifs with hne
    · trivial
    · exact hy.symm.trans ((not_not.1 hne).trans hz)
  cases f with
  | outer u z =>
    cases z with
    | none =>
      cases o <;> cases hs
      · exact ⟨rfl, by simp⟩
      · exact fun z' hz => (Option.some.inj hz).symm
    | some z =>
      cases hs
      exact ⟨rfl, h⟩
  | inner u x z =>
    obtain ⟨rfl, hz⟩ := h
    cases z with
    | none =>
      cases o <;> cases hs
      · rfl
      · exact ⟨rfl, fun z' hz => (Option.some.inj hz).symm⟩
    | some z =>
      cases hs
      exact hcmp u _ z rfl (hz z rfl)
  | right u y =>
    cases hs
    exact hcmp u y _ h rfl
  | halveOuter u => cases hs; trivial
  | halveInner u x => cases hs; trivial
  | store u g => cases hs; trivial
  | reload u =>
    cases hs
    intro z' hz
    cases hz
  | ret u => cases hs

/-- what it returns then is the root of its argument -/
theorem FindPc.root_of_finalLoad (ho : Ordered rk p) {u0 : Fin n} {f : FindPc n} (h : f.Inv rk p u0)
    (hf : f.FinalLoad p) {o : Side} {r : Fin n} (hs : f.step p o = (p', .inr r)) : p' = p ∧ r = root p u0 := by
  cases f with
  | ret u =>
    cases hs
    have hsame : Same p (p u) u0 := (ho.same_parent u).trans h
    exact ⟨rfl, (root_of_fixed hf).symm.trans hsame⟩
  | outer u z => cases z <;> cases o <;> cases hs
  | inner u x z => cases z <;> cases o <;> cases hs
  | right | halveOuter | halveInner | store | reload => cases hs

/-! ## `merge` -/

/-- `a` and `b` stand for the sets of `u` and `v`, in one order or the other (`order_edge` swaps them) -/
def Pair (p : Fin n → Fin n) (a b u v : Fin n) : Prop := Same p a u ∧ Same p b v ∨ Same p a v ∧ Same p b u

theorem Pair.mono {a b u v : Fin n} (h : Pair p a b u v) (hg : Grows p p') : Pair p' a b u v :=
  h.imp (fun h => ⟨hg.same _ _ h.1, hg.same _ _ h.2⟩) fun h => ⟨hg.same _ _ h.1, hg.same _ _ h.2⟩

theorem Pair.swap {a b u v : Fin n} (h : Pair p a b u v) : Pair p b a u v := h.symm.imp And.symm And.symm

theorem Pair.replace {a b a' b' u v : Fin n} (h : Pair p a b u v) (ha : Same p a' a) (hb : Same p b' b) :
    Pair p a' b' u v :=
  h.imp (fun h => ⟨ha.trans h.1, hb.trans h.2⟩) fun h => ⟨ha.trans h.1, hb.trans h.2⟩

theorem Pair.same {a u v : Fin n} (h : Pair p a a u v) : Same p u v :=
  h.elim (fun h => h.1.symm.trans h.2) fun h => h.2.symm.trans h.1

/-- the order of `order_edge`: priority first, ties to the smaller id -/
theorem rank_lt_iff {priority : Fin n → ℕ} {a b : Fin n} :
    rank priority a < rank priority b ↔ priority a < priority b ∨ priority a = priority b ∧ b < a :=
  Prod.Lex.toLex_lt_toLex

/-- `order_edge` puts the item of the higher rank first -/
theorem orderEdge_spec (priority : Fin n → ℕ) {a b : Fin n} (hne : a ≠ b) :
    (orderEdge priority a b = (a, b) ∧ rank priority b < rank priority a) ∨
      (orderEdge priority a b = (b, a) ∧ rank priority a < rank priority b) := by
  have hlt := lt_or_gt_of_ne hne
  by_cases hp : priority a = priority b
  · rcases hlt with h | h
    · exact Or.inl ⟨by simp [orderEdge, hp, h.not_gt], rank_lt_iff.2 (Or.inr ⟨hp.symm, h⟩)⟩
    · exact Or.inr ⟨by simp [orderEdge, hp, h], rank_lt_iff.2 (Or.inr ⟨hp, h⟩)⟩
  · rcases lt_or_gt_of_ne hp with h | h
    · exact Or.inr ⟨by simp [orderEdge, hp, h], rank_lt_iff.2 (Or.inl h)⟩
    · exact Or.inl ⟨by simp [orderEdge, hp, h.not_gt], rank_lt_iff.2 (Or.inl h)⟩

/-- what a `merge` call with arguments `u`, `v` knows -/
def MergePc.Inv (priority : Fin n → ℕ) (p : Fin n → Fin n) (u v : Fin n) : MergePc n → Prop
  | .loop a b => Pair p a b u v
  | .first o a b f => Pair p a b u v ∧ f.Inv (rank priority) p (pick o a b)
  | .second o a b f => Pair p a b u v ∧ f.Inv (rank priority) p (pick o.other a b)
  | .cas a b => Pair p a b u v ∧ rank priority b < rank priority a

variable {priority : Fin n → ℕ}

theorem MergePc.inv_start (priority : Fin n → ℕ) (p : Fin n → Fin n) (u v : Fin n) :
    (MergePc.loop u v).Inv priority p u v := Or.inl ⟨Same.refl p u, Same.refl p v⟩

theorem MergePc.Inv.mono {u v : Fin n} {m : MergePc n} (h : m.Inv priority p u v) (hg : Grows p p') :
    m.Inv priority p' u v := by
  cases m with
  | loop a b => exact Pair.mono h hg
  | first o a b f => exact ⟨h.1.mono hg, h.2.mono hg⟩
  | second o a b f => exact ⟨h.1.mono hg, h.2.mono hg⟩
  | cas a b => exact ⟨h.1.mono hg, h.2⟩

theorem pair_assign {a b r u v : Fin n} (o : Side) (h : Pair p a b u v) (hr : Same p r (pick o a b)) :
    Pair p (assign o a b r).1 (assign o a b r).2 u v := by
  cases o with
  | left => exact h.replace hr (Same.refl p b)
  | right => exact h.replace (Same.refl p a) hr

/-- the outcome of a step of `merge`: the array after it, and the state of the call or its result -/
def MergePc.Post (priority : Fin n → ℕ) (p p' : Fin n → Fin n) (u v : Fin n) : MergePc n ⊕ DSUMergeRet → Prop
  | .inl m => Quiet (rank priority) p p' ∧ m.Inv priority p' u v
  | .inr r =>
    r.merged = true ∧ Links (rank priority) p p' u v ∨
      r.merged = false ∧ Quiet (rank priority) p p' ∧ Same p' u v

theorem MergePc.post_test {u v a b : Fin n} (hq : Quiet (rank priority) p p') (h : Pair p' a b u v) :
    MergePc.Post priority p p' u v (MergePc.test priority a b) := by
  unfold MergePc.test
  split_ifs with hne
  · rcases orderEdge_spec priority hne with ⟨he, hr⟩ | ⟨he, hr⟩ <;> rw [he]
    · exact ⟨hq, h, hr⟩
    · exact ⟨hq, h.swap, hr⟩
  · rw [not_not.1 hne] at h
    exact Or.inr ⟨rfl, hq, h.same⟩

theorem MergePc.step_spec (ho : Ordered (rank priority) p) {u v : Fin n} {m : MergePc n} (h : m.Inv priority p u v)
    (o : Side) : MergePc.Post priority p (m.step priority p o).1 u v (m.step priority p o).2 := by
  cases m with
  | loop a b => exact ⟨Quiet.refl _ p, h, FindPc.inv_start _ p _⟩
  | first o' a b f =>
    obtain ⟨hq, hf⟩ := FindPc.step_spec ho h.2 o
    have hp := h.1.mono (hq.grows ho)
    simp only [MergePc.step]
    rcases hs : f.step p o with ⟨q, f' | r⟩ <;> rw [hs] at hq hf hp
    · exact ⟨hq, hp, hf⟩
    · exact ⟨hq, pair_assign o' hp hf, FindPc.inv_start _ q _⟩
  | second o' a b f =>
    obtain ⟨hq, hf⟩ := FindPc.step_spec ho h.2 o
    have hp := h.1.mono (hq.grows ho)
    simp only [MergePc.step]
    rcases hs : f.step p o with ⟨q, f' | r⟩ <;> rw [hs] at hq hf hp
    · exact ⟨hq, hp, hf⟩
    · exact MergePc.post_test hq (pair_assign o'.other hp hf)
  | cas a b =>
    have hretry : Pair p a (p b) u v := h.1.replace (Same.refl p a) (ho.same_parent b)
    cases o with
    | left =>
      simp only [MergePc.step]
      split_ifs with hb
      · exact Or.inl ⟨rfl, a, b, hb, h.2, h.1, rfl⟩
      · exact ⟨Quiet.refl _ p, hretry⟩
    | right => exact ⟨Quiet.refl _ p, hretry⟩

end GraphStreamingCC.Dsu
