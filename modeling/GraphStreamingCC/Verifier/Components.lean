/-
What `verify_connected_components` accepts.

A `ConnectedComponents` object is made by an OpenMP loop over the vertices (src/return_types.cpp): `Built.step` is one
atomic operation of one thread of the team, in `find_root` or at the atomic update of `temp_cc`. The array of the
union-find is any ordered forest.

- `Inv`, `built_numCc`: in every run, `num_cc` is the number of vertices that are their own entry.
- `Exact`, `built_parentArr`: if every `find_root` makes its last load at a root, the entries are the roots.
- `accepted_iff`: the verifier compares the count, and one direction of the two partitions. The fixed points of
  `parent_arr` lie in different classes, so that what it accepts is right; `oracle_exact` says when it accepts all that
  is right.
- `raced_components`: an object that a race has spoiled has the right classes and is refused.
-/
import GraphStreamingCC.Core.Threads
import GraphStreamingCC.Verifier.Forests

namespace GraphStreamingCC

open Dsu ParentForest SpanningForest Parity Runs DisjointSetUnion

variable {n T : ℕ}

namespace Built

/-! ## The constructor -/

/-- the statement that a thread has reached in the body of the loop -/
inductive Pc (n : ℕ) where
  /-- in `dsu.find_root(i)` -/
  | find (i : Fin n) (f : FindPc n)
  /-- about to test `parent_arr[i] == i` -/
  | count (i : Fin n)
deriving DecidableEq, Repr

/-- the vertices that a thread has still to begin, and where it is -/
structure Thread (n : ℕ) where
  todo : List (Fin n)
  cur : Option (Pc n)
deriving DecidableEq, Repr

structure St (n T : ℕ) where
  parent : Fin n → Fin n
  parentArr : Fin n → Fin n
  tempCc : ℕ
  thr : Fin T → Thread n

/-- the loop begins; `owner` is its schedule -/
def start (parent : Fin n → Fin n) (owner : Fin n → Fin T) : St n T :=
  ⟨parent, id, 0, fun t => ⟨(List.finRange n).filter fun i => owner i = t, none⟩⟩

def St.goto (s : St n T) (t : Fin T) (todo : List (Fin n)) (cur : Option (Pc n)) : St n T :=
  { s with thr := Function.update s.thr t ⟨todo, cur⟩ }

def step (s : St n T) (l : Fin T × Side) : Option (St n T) :=
  match (s.thr l.1).cur with
  | none =>
    match (s.thr l.1).todo with
    | [] => none
    | i :: is => some (s.goto l.1 is (some (.find i (.start i))))
  | some (.find i f) =>
    match f.step s.parent l.2 with
    | (parent', .inl f') => some { s.goto l.1 (s.thr l.1).todo (some (.find i f')) with parent := parent' }
    | (parent', .inr r) =>
      some { s.goto l.1 (s.thr l.1).todo (some (.count i)) with
             parent := parent'
             parentArr := Function.update s.parentArr i r }
  | some (.count i) =>
    some { s.goto l.1 (s.thr l.1).todo none with tempCc := if s.parentArr i = i then s.tempCc + 1 else s.tempCc }

def Done (s : St n T) : Prop := ∀ t, (s.thr t).todo = [] ∧ (s.thr t).cur = none

/-- the object behind the loop -/
def St.object (s : St n T) : ConnectedComponents n := ⟨s.parentArr, s.tempCc⟩

/-- the last load of a `find_root`, `return parent[u]`, gives a root -/
def FinalLoad (s : St n T) (l : Fin T × Side) : Prop :=
  match (s.thr l.1).cur with
  | some (.find _ f) => f.FinalLoad s.parent
  | _ => True

/-! ## Every run -/

/-- the vertices that a thread has not finished, or not given an entry -/
def Thread.pending (x : Thread n) : List (Fin n) :=
  match x.cur with
  | none => x.todo
  | some (.find i _) | some (.count i) => i :: x.todo

def Thread.unset (x : Thread n) : List (Fin n) :=
  match x.cur with
  | some (.find i _) => i :: x.todo
  | _ => x.todo

variable {priority : Fin n → ℕ} {parent : Fin n → Fin n} {owner : Fin n → Fin T} {s s' : St n T}

structure Inv (priority : Fin n → ℕ) (parent : Fin n → Fin n) (owner : Fin n → Fin T) (s : St n T) : Prop where
  ord : Ordered (rank priority) s.parent
  root : ∀ x, root s.parent x = root parent x
  calls : ∀ t i f, (s.thr t).cur = some (.find i f) → f.Inv (rank priority) s.parent i
  owned : ∀ t, ∀ i ∈ (s.thr t).pending, owner i = t
  nodup : ∀ t, (s.thr t).pending.Nodup
  count : s.tempCc = (Finset.univ.filter fun i => i ∉ (s.thr (owner i)).pending ∧ s.parentArr i = i).card

theorem inv_start (ho : Ordered (rank priority) parent) (owner : Fin n → Fin T) :
    Inv priority parent owner (start parent owner) where
  ord := ho
  root _ := rfl
  calls t i f h := by cases h
  owned t i hi := by simpa using (List.mem_filter.1 hi).2
  nodup t := (List.nodup_finRange n).filter _
  count := by simp [start, Thread.pending]

/-- what one step does -/
theorem step_cases {l : Fin T × Side} (h : step s l = some s') :
    (∃ i is, (s.thr l.1).cur = none ∧ (s.thr l.1).todo = i :: is ∧ s' = s.goto l.1 is (some (.find i (.start i)))) ∨
    (∃ i f p f', (s.thr l.1).cur = some (.find i f) ∧ f.step s.parent l.2 = (p, .inl f') ∧
      s' = { s.goto l.1 (s.thr l.1).todo (some (.find i f')) with parent := p }) ∨
    (∃ i f p r, (s.thr l.1).cur = some (.find i f) ∧ f.step s.parent l.2 = (p, .inr r) ∧
      s' = { s.goto l.1 (s.thr l.1).todo (some (.count i)) with
             parent := p
             parentArr := Function.update s.parentArr i r }) ∨
    ∃ i, (s.thr l.1).cur = some (.count i) ∧ s' = { s.goto l.1 (s.thr l.1).todo none with
      tempCc := if s.parentArr i = i then s.tempCc + 1 else s.tempCc } := by
  unfold step at h
  split at h
  next hcur =>
    split at h
    next => cases h
    next i is htodo => exact .inl ⟨i, is, hcur, htodo, (Option.some.inj h).symm⟩
  next i f hcur =>
    split at h
    next p f' hf => exact .inr (.inl ⟨i, f, p, f', hcur, hf, (Option.some.inj h).symm⟩)
    next p r hf => exact .inr (.inr (.inl ⟨i, f, p, r, hcur, hf, (Option.some.inj h).symm⟩))
  next i hcur => exact .inr (.inr (.inr ⟨i, hcur, (Option.some.inj h).symm⟩))

/-- a thread moves on and has the same vertices to finish -/
theorem pending_goto {t : Fin T} {x : Thread n} (h : x.pending = (s.thr t).pending) (t' : Fin T) :
    (Function.update s.thr t x t').pending = (s.thr t').pending := Threads.apply_update Thread.pending h t'

/-- the calls of the other threads go on in an array that has grown -/
theorem calls_goto {p p' : Fin n → Fin n} {t : Fin T} {x : Thread n} (hg : Grows p p')
    (h : ∀ t i f, (s.thr t).cur = some (.find i f) → f.Inv (rank priority) p i)
    (hx : ∀ i f, x.cur = some (.find i f) → f.Inv (rank priority) p' i) (t' : Fin T) (i : Fin n) (f : FindPc n)
    (hcur : (Function.update s.thr t x t').cur = some (.find i f)) : f.Inv (rank priority) p' i :=
  Threads.forall_update (Q := fun _ (x : Thread n) => ∀ i f, x.cur = some (.find i f) → f.Inv (rank priority) p' i)
    (fun t' i f hcur => (h t' i f hcur).mono hg) hx t' i f hcur

/-- a thread moves on with the same vertices to finish; their entries may change -/
theorem Inv.goto (h : Inv priority parent owner s) {t : Fin T} {x : Thread n} {p' parentArr' : Fin n → Fin n}
    (hpending : x.pending = (s.thr t).pending) (hq : Quiet (rank priority) s.parent p')
    (hx : ∀ i f, x.cur = some (.find i f) → f.Inv (rank priority) p' i)
    (harr : ∀ j, j ∉ (s.thr (owner j)).pending → parentArr' j = s.parentArr j) :
    Inv priority parent owner { s with thr := Function.update s.thr t x, parent := p', parentArr := parentArr' } := by
  refine ⟨hq.ordered h.ord, fun y => (hq.root_eq h.ord y).trans (h.root y), calls_goto (hq.grows h.ord) h.calls hx, ?_, ?_, ?_⟩
  · simp only [pending_goto hpending]
    exact h.owned
  · simp only [pending_goto hpending]
    exact h.nodup
  · simp only [pending_goto hpending]
    rw [h.count]
    exact congrArg Finset.card (Finset.filter_congr fun j _ => and_congr_right fun hj => by rw [harr j hj])

/-- a vertex is finished, and counted if it is its own entry -/
theorem Inv.finish (h : Inv priority parent owner s) {t : Fin T} {i : Fin n} (hcur : (s.thr t).cur = some (.count i)) :
    Inv priority parent owner { s.goto t (s.thr t).todo none with
      tempCc := if s.parentArr i = i then s.tempCc + 1 else s.tempCc } := by
  have hpending : (s.thr t).pending = i :: (s.thr t).todo := by
    simp only [Thread.pending, hcur]
  have hnodup := h.nodup t
  have howned := h.owned t
  rw [hpending] at hnodup howned
  obtain ⟨hi, hnodup⟩ := List.nodup_cons.1 hnodup
  have hthr : ∀ t', (Function.update s.thr t ⟨(s.thr t).todo, none⟩ t').pending =
      if t' = t then (s.thr t).todo else (s.thr t').pending := by
    intro t'
    by_cases ht : t' = t
    · rw [ht, Function.update_self, if_pos rfl]
      rfl
    · rw [Function.update_of_ne ht, if_neg ht]
  refine ⟨h.ord, h.root, calls_goto (Grows.refl _) h.calls ?_, ?_, ?_, ?_⟩
  · intro j g hj
    cases hj
  · intro t' j hj
    simp only [St.goto, hthr] at hj
    split_ifs at hj with ht
    · rw [ht]
      exact howned j (List.mem_cons_of_mem i hj)
    · exact h.owned t' j hj
  · intro t'
    simp only [St.goto, hthr]
    split_ifs
    · exact hnodup
    · exact h.nodup t'
  · -- vertex i is counted now, if it is its own entry
    have hset : (Finset.univ.filter fun j =>
        j ∉ (Function.update s.thr t ⟨(s.thr t).todo, none⟩ (owner j)).pending ∧ s.parentArr j = j) =
        (if s.parentArr i = i then {i} else ∅) ∪
          Finset.univ.filter fun j => j ∉ (s.thr (owner j)).pending ∧ s.parentArr j = j := by
      ext j
      simp only [hthr, Finset.mem_union, Finset.mem_filter, Finset.mem_univ, true_and]
      by_cases hj : j = i
      · rw [hj, howned i List.mem_cons_self, hpending]
        by_cases harr : s.parentArr i = i <;> simp [harr, hi]
      · have hiff : (j ∉ if owner j = t then (s.thr t).todo else (s.thr (owner j)).pending) ↔
            j ∉ (s.thr (owner j)).pending := by
          split_ifs with ht
          · rw [ht, hpending, List.mem_cons, or_iff_right hj]
          · rfl
        rw [hiff]
        split_ifs <;> simp [hj]
    have hnot : i ∉ Finset.univ.filter fun j => j ∉ (s.thr (owner j)).pending ∧ s.parentArr j = j := by
      rw [Finset.mem_filter, howned i List.mem_cons_self, hpending]
      intro hmem
      exact hmem.2.1 List.mem_cons_self
    simp only [St.goto, hset, h.count]
    split_ifs
    · rw [Finset.card_union_of_disjoint (Finset.disjoint_singleton_left.2 hnot), Finset.card_singleton, Nat.add_comm]
    · rw [Finset.empty_union]

theorem step_inv {l : Fin T × Side} (h : Inv priority parent owner s) (hs : step s l = some s') :
    Inv priority parent owner s' := by
  rcases step_cases hs with ⟨i, is, hcur, htodo, rfl⟩ | ⟨i, f, p, f', hcur, hf, rfl⟩ | ⟨i, f, p, r, hcur, hf, rfl⟩ |
    ⟨i, hcur, rfl⟩
  · refine h.goto (by simp only [Thread.pending, hcur, htodo]) (Quiet.refl _ _) (fun j g hj => ?_) fun _ _ => rfl
    cases hj
    exact FindPc.inv_start (rank priority) s.parent i
  · obtain ⟨hq, hinv⟩ := FindPc.step_spec h.ord (h.calls l.1 i f hcur) l.2
    rw [hf] at hq hinv
    refine h.goto (by simp only [Thread.pending, hcur]) hq (fun j g hj => ?_) fun _ _ => rfl
    cases hj
    exact hinv
  · obtain ⟨hq, -⟩ := FindPc.step_spec h.ord (h.calls l.1 i f hcur) l.2
    rw [hf] at hq
    refine h.goto (by simp only [Thread.pending, hcur]) hq (fun j g hj => by cases hj) fun j hj => ?_
    -- the new entry is that of a vertex that is not finished yet
    have hmem : i ∈ (s.thr l.1).pending := by
      simp only [Thread.pending, hcur]
      exact List.mem_cons_self
    have hne : j ≠ i := by
      rintro rfl
      rw [h.owned l.1 j hmem] at hj
      exact hj hmem
    exact Function.update_of_ne hne _ _
  · exact h.finish hcur

/-- **`num_cc`** counts the vertices that are their own entry, whatever the threads do. -/
theorem built_numCc (ho : Ordered (rank priority) parent) {ls : List (Fin T × Side)}
    (hs : exec step (start parent owner) ls = some s) (hd : Done s) :
    s.object.size = (Finset.univ.filter fun i => s.parentArr i = i).card := by
  have h := exec_invariant _ (fun _ _ _ h hs => step_inv h hs) (inv_start ho owner) hs
  have hpending : ∀ t, (s.thr t).pending = [] := by
    intro t
    simp only [Thread.pending, (hd t).2, (hd t).1]
  rw [ConnectedComponents.size, St.object, h.count]
  simp only [hpending, List.not_mem_nil, not_false_eq_true, true_and]

/-! ## Runs whose last loads give roots -/

/-- the vertices that have an entry have their root as it -/
def Exact (parent : Fin n → Fin n) (owner : Fin n → Fin T) (s : St n T) : Prop :=
  ∀ i, i ∉ (s.thr (owner i)).unset → s.parentArr i = ParentForest.root parent i

theorem unset_goto {t : Fin T} {x : Thread n} (h : x.unset = (s.thr t).unset) (t' : Fin T) :
    (Function.update s.thr t x t').unset = (s.thr t').unset := Threads.apply_update Thread.unset h t'

theorem step_exact {l : Fin T × Side} (hl : FinalLoad s l) (h : Inv priority parent owner s) (he : Exact parent owner s)
    (hs : step s l = some s') : Exact parent owner s' := by
  rcases step_cases hs with ⟨i, is, hcur, htodo, rfl⟩ | ⟨i, f, p, f', hcur, hf, rfl⟩ | ⟨i, f, p, r, hcur, hf, rfl⟩ |
    ⟨i, hcur, rfl⟩
  · have hunset : (⟨is, some (.find i (.start i))⟩ : Thread n).unset = (s.thr l.1).unset := by
      simp only [Thread.unset, hcur, htodo]
    intro j hj
    simp only [St.goto, unset_goto hunset] at hj
    exact he j hj
  · have hunset : (⟨(s.thr l.1).todo, some (.find i f')⟩ : Thread n).unset = (s.thr l.1).unset := by
      simp only [Thread.unset, hcur]
    intro j hj
    simp only [St.goto, unset_goto hunset] at hj
    exact he j hj
  · -- vertex i gets its entry
    have hunset : (s.thr l.1).unset = i :: (s.thr l.1).todo := by
      simp only [Thread.unset, hcur]
    simp only [FinalLoad, hcur] at hl
    obtain ⟨-, hr⟩ := FindPc.root_of_finalLoad h.ord (h.calls l.1 i f hcur) hl hf
    intro j hj
    by_cases hji : j = i
    · simp only [hji, Function.update_self]
      rw [hr]
      exact h.root i
    · simp only [Function.update_of_ne hji]
      refine he j fun hmem => hj ?_
      simp only [St.goto]
      by_cases ht : owner j = l.1
      · rw [ht, hunset] at hmem
        rw [ht, Function.update_self]
        exact (List.mem_cons.1 hmem).resolve_left hji
      · rwa [Function.update_of_ne ht]
  · have hunset : (⟨(s.thr l.1).todo, none⟩ : Thread n).unset = (s.thr l.1).unset := by
      simp only [Thread.unset, hcur]
    intro j hj
    simp only [St.goto, unset_goto hunset] at hj
    exact he j hj

theorem built_parentArr (ho : Ordered (rank priority) parent) {ls : List (Fin T × Side)}
    (hl : Meets step FinalLoad (start parent owner) ls) (hs : exec step (start parent owner) ls = some s) (hd : Done s) :
    s.parentArr = ParentForest.root parent := by
  have hexact : Exact parent owner (start parent owner : St n T) := by
    intro i hi
    refine absurd (List.mem_filter.2 ⟨List.mem_finRange i, ?_⟩) hi
    exact decide_eq_true rfl
  have h := exec_invariant_of_meets (I := fun s => Inv priority parent owner s ∧ Exact parent owner s) _
    (fun _ _ _ h hl hs => ⟨step_inv h.1 hs, step_exact hl h.1 h.2 hs⟩) ⟨inv_start ho owner, hexact⟩ hl hs
  funext i
  apply h.2 i
  rw [Thread.unset, (hd _).2, (hd _).1]
  exact List.not_mem_nil

instance (s : St n T) (l : Fin T × Side) : Decidable (FinalLoad s l) := by
  unfold FinalLoad
  split <;> infer_instance

instance (s : St n T) : Decidable (Done s) := inferInstanceAs (Decidable (∀ t, (s.thr t).todo = [] ∧ (s.thr t).cur = none))

end Built

/-! ## The verdict -/

namespace GraphVerifier

variable {g : GraphVerifier n} {cc : ConnectedComponents n}

theorem checkConnected_fst (cc : ConnectedComponents n) (d : DisjointSetUnion n) (is : List (Fin n)) (x : Fin n) :
    root (checkConnected cc d is).1.parent x = root d.parent x := by
  induction is generalizing d with
  | nil => rfl
  | cons i is ih =>
    simp only [checkConnected]
    split_ifs
    · rw [ih, findRoot_root]
    · exact findRoot_root d i x

theorem checkConnected_snd (cc : ConnectedComponents n) (d : DisjointSetUnion n) (is : List (Fin n)) :
    (checkConnected cc d is).2 = if ∀ i ∈ is, cc.isConnected (root d.parent i) i = true then .ok ()
      else .error (.incorrectCC "Incorrect Connectivity!") := by
  induction is generalizing d with
  | nil => exact (if_pos fun i hi => absurd hi List.not_mem_nil).symm
  | cons i is ih =>
    simp only [checkConnected, findRoot_snd, List.forall_mem_cons]
    by_cases hi : cc.isConnected (root d.parent i) i = true
    · rw [if_pos hi, ih]
      simp only [findRoot_root, hi, true_and]
    · rw [if_neg hi, if_neg fun h => hi h.1]

/-- every vertex agrees with its root: one partition refines the other -/
theorem isConnected_root_iff (cc : ConnectedComponents n) (d : DisjointSetUnion n) :
    (∀ i ∈ List.finRange n, cc.isConnected (root d.parent i) i = true) ↔
      ∀ i j, Same d.parent i j → cc.parentArr i = cc.parentArr j := by
  simp only [ConnectedComponents.isConnected, beq_iff_eq]
  constructor
  · intro h i j hij
    rw [← h i (List.mem_finRange i), ← h j (List.mem_finRange j), hij]
  · intro h i _
    exact h _ _ (d.ordered.same_root i)

/-- **What is tested.** The count, and one direction of the equality of the partitions. -/
theorem verifyConnectedComponents_snd (g : GraphVerifier n) (cc : ConnectedComponents n) :
    (g.verifyConnectedComponents cc).2 =
      if g.kruskal.kruskalCcs ≠ cc.size then .error (.incorrectCC "Incorrect number of components!")
      else if ∀ i j, Same g.kruskal.kruskalDsu.parent i j → cc.parentArr i = cc.parentArr j then .ok ()
      else .error (.incorrectCC "Incorrect Connectivity!") := by
  simp only [verifyConnectedComponents]
  split_ifs with hsize h
  · rfl
  · rw [checkConnected_snd, if_pos ((isConnected_root_iff cc _).2 h)]
  · rw [checkConnected_snd, if_neg ((isConnected_root_iff cc _).not.2 h)]

/-- only paths are halved -/
theorem verifyConnectedComponents_fst (g : GraphVerifier n) (cc : ConnectedComponents n) :
    (g.verifyConnectedComponents cc).1.adjMatrix = g.adjMatrix ∧
      (g.verifyConnectedComponents cc).1.needQueryCompute = false ∧
      (g.verifyConnectedComponents cc).1.kruskalCcs = g.kruskal.kruskalCcs ∧
      ∀ x, root (g.verifyConnectedComponents cc).1.kruskalDsu.parent x = root g.kruskal.kruskalDsu.parent x := by
  simp only [verifyConnectedComponents]
  split_ifs
  · exact ⟨kruskal_adjMatrix, kruskal_needQueryCompute, rfl, fun _ => rfl⟩
  · exact ⟨kruskal_adjMatrix, kruskal_needQueryCompute, rfl, checkConnected_fst cc _ _⟩

theorem accepted_iff (g : GraphVerifier n) (cc : ConnectedComponents n) : (g.verifyConnectedComponents cc).2 = .ok () ↔
    g.kruskal.kruskalCcs = cc.size ∧ ∀ i j, Same g.kruskal.kruskalDsu.parent i j → cc.parentArr i = cc.parentArr j := by
  rw [verifyConnectedComponents_snd]
  split_ifs with hsize h
  · exact iff_of_false (fun h => by cases h) fun h => hsize h.1
  · exact iff_of_true rfl ⟨not_not.1 hsize, h⟩
  · exact iff_of_false (fun h => by cases h) fun h' => h h'.2

/-- a second call -/
theorem verifyConnectedComponents_again (g : GraphVerifier n) (cc : ConnectedComponents n) :
    ((g.verifyConnectedComponents cc).1.verifyConnectedComponents cc).2 = (g.verifyConnectedComponents cc).2 := by
  obtain ⟨-, hvalid, hcount, hroot⟩ := g.verifyConnectedComponents_fst cc
  rw [verifyConnectedComponents_snd, verifyConnectedComponents_snd, kruskal_of_valid hvalid, hcount]
  refine if_congr Iff.rfl rfl (if_congr ?_ rfl rfl)
  simp only [Same, hroot]

/-- a partition with as many classes as the coarser array has fixed points is the same -/
theorem same_of_refines (d : DisjointSetUnion n) {arr : Fin n → Fin n} (h : ∀ i j, Same d.parent i j → arr i = arr j)
    (hcard : d.roots = (Finset.univ.filter fun i => arr i = i).card) {i j : Fin n} (hij : arr i = arr j) : Same d.parent i j := by
  -- every root has a fixed point in its set, since different fixed points have different roots
  have himage : (Finset.univ.filter fun i => arr i = i).image (root d.parent) = Finset.univ.filter fun w => d.parent w = w := by
    apply Finset.eq_of_subset_of_card_le
    · intro w hw
      obtain ⟨k, -, rfl⟩ := Finset.mem_image.1 hw
      exact Finset.mem_filter.2 ⟨Finset.mem_univ _, d.ordered.root_fixed k⟩
    · rw [Finset.card_image_of_injOn, ← hcard, DisjointSetUnion.roots]
      intro k hk m hm he
      have hkm := h k m he
      rwa [(Finset.mem_filter.1 hk).2, (Finset.mem_filter.1 hm).2] at hkm
  have hfixed : ∀ k, ∃ m, arr m = m ∧ Same d.parent m k := by
    intro k
    have hmem : root d.parent k ∈ Finset.univ.filter fun w => d.parent w = w :=
      Finset.mem_filter.2 ⟨Finset.mem_univ _, d.ordered.root_fixed k⟩
    rw [← himage] at hmem
    obtain ⟨m, hm, he⟩ := Finset.mem_image.1 hmem
    exact ⟨m, (Finset.mem_filter.1 hm).2, he⟩
  obtain ⟨k, hk, hki⟩ := hfixed i
  obtain ⟨m, hm, hmj⟩ := hfixed j
  have hkm : k = m := by
    rw [← hk, ← hm, h k i hki, h m j hmj]
    exact hij
  subst hkm
  exact hki.symm.trans hmj

/-- **The oracle for connected components.** The verifier has seen any updates, and the object is made by any run of its
constructor over any union-find. If the object is accepted, its classes are the components of the graph; a second call
has the same verdict. If every `find_root` of the constructor makes its last load at a root, the object is accepted if
and only if its classes are the components. -/
theorem oracle_exact {l : List (Fin n × Fin n)} (hg : Constructed g l) (edges : List (Fin n × Fin n)) {priority : Fin n → ℕ}
    {parent : Fin n → Fin n} (ho : Ordered (rank priority) parent) {owner : Fin n → Fin T} {ls : List (Fin T × Side)}
    {s : Built.St n T} (hs : exec Built.step (Built.start parent owner) ls = some s) (hd : Built.Done s) :
    (((g.afterUpdates edges).verifyConnectedComponents s.object).2 = .ok () →
      ∀ a b, s.object.isConnected a b = true ↔ (oddGraph (l ++ edges)).Reachable a b) ∧
    (((g.afterUpdates edges).verifyConnectedComponents s.object).1.verifyConnectedComponents s.object).2 =
      ((g.afterUpdates edges).verifyConnectedComponents s.object).2 ∧
    (Meets Built.step Built.FinalLoad (Built.start parent owner) ls →
      (((g.afterUpdates edges).verifyConnectedComponents s.object).2 = .ok () ↔
        ∀ a b, s.object.isConnected a b = true ↔ (oddGraph (l ++ edges)).Reachable a b)) := by
  have hsets := afterUpdates_components hg edges
  have hcount := (afterUpdates_spec hg.counted hg.coherent edges).2.1.kruskal
  have hnumCc := Built.built_numCc ho hs hd
  have hsound : ((g.afterUpdates edges).verifyConnectedComponents s.object).2 = .ok () →
      ∀ a b, s.object.isConnected a b = true ↔ (oddGraph (l ++ edges)).Reachable a b := by
    intro hok a b
    obtain ⟨hsize, hrefines⟩ := (accepted_iff _ _).1 hok
    rw [hcount, hnumCc] at hsize
    rw [ConnectedComponents.isConnected, beq_iff_eq, ← hsets a b]
    exact ⟨same_of_refines _ hrefines hsize, hrefines a b⟩
  refine ⟨hsound, verifyConnectedComponents_again _ _, fun hl => ⟨hsound, fun hright => ?_⟩⟩
  have harr := Built.built_parentArr ho hl hs hd
  have hsame : ∀ a b, (oddGraph (l ++ edges)).Reachable a b ↔ Same parent a b := by
    intro a b
    rw [← hright a b, ConnectedComponents.isConnected, beq_iff_eq, Built.St.object, harr]
    rfl
  have hroots : (Finset.univ.filter fun i => root parent i = i) = Finset.univ.filter fun i => parent i = i := by
    refine Finset.filter_congr fun i _ => ⟨fun h => ?_, root_of_fixed⟩
    rw [← h]
    exact ho.root_fixed i
  refine (accepted_iff _ _).2 ⟨?_, fun i j hij => ?_⟩
  · rw [hcount, hnumCc, harr, hroots, card_roots_eq_components ho hsame]
    exact hsets.roots
  · have hij' := (hsame i j).1 ((hsets i j).1 hij)
    rw [Built.St.object, harr]
    exact hij'

/-! ## Runs -/

/-- thread 0 has vertex v and thread 1 the others -/
def ownedBy (v i : Fin n) : Fin 2 := if i = v then Threads.fst else Threads.snd

/-- k steps of thread t -/
def stepsOf (t : Fin 2) (k : ℕ) : List (Fin 2 × Side) := List.replicate k (t, .left)

/-- two vertices of one set, and the edge between them -/
theorem oracle_exact_edge : ∃ s, exec Built.step (Built.start (fun _ => Threads.snd) (ownedBy Threads.fst))
      (stepsOf Threads.fst 6 ++ stepsOf Threads.snd 6) = some s ∧
    (((new (fun _ => 7) 0).afterUpdates [(Threads.fst, Threads.snd)]).verifyConnectedComponents s.object).2 = .ok () := by
  have ho : Ordered (rank fun u : Fin 2 => u.val) fun _ => Threads.snd := by
    unfold Ordered
    decide
  have hrun : (exec Built.step (Built.start (fun _ => Threads.snd) (ownedBy Threads.fst))
      (stepsOf Threads.fst 6 ++ stepsOf Threads.snd 6)).map (fun s : Built.St 2 2 => (decide (Built.Done s), s.parentArr)) =
      some (true, fun _ => Threads.snd) := by decide +kernel
  obtain ⟨s, hs, he⟩ := Option.map_eq_some_iff.1 hrun
  obtain ⟨hd, harr⟩ := Prod.mk.inj he
  have hright := (oracle_exact (.inl ⟨fun _ => 7, 0, rfl, rfl⟩) [(Threads.fst, Threads.snd)] ho hs (of_decide_eq_true hd)).2.2
  refine ⟨s, hs, (hright (by decide +kernel)).2 fun a b => ?_⟩
  have hadj : (oddGraph [(Threads.fst, Threads.snd)]).Adj Threads.fst Threads.snd := oddGraph_adj.2 (by decide)
  have hall : ∀ a b, (oddGraph [(Threads.fst, Threads.snd)]).Reachable a b := by
    intro a b
    fin_cases a <;> fin_cases b <;> first | exact hadj.reachable | exact hadj.symm.reachable | exact SimpleGraph.Reachable.refl _
  refine iff_of_true ?_ (hall a b)
  rw [ConnectedComponents.isConnected, Built.St.object, harr, beq_iff_eq]

/-- the chain 0 → 1 → .. → 5 -/
def chain (u : Fin 6) : Fin 6 := Threads.nth (min (u + 1) 5)

/-- the merges that make it -/
def chainCalls (_ : Fin 1) : List (Dsu.Call 6) := (List.range 5).map fun k => .merge (Threads.nth k) (Threads.nth (k + 1))

/-- the constructor's thread 0 is in `find_root(2)` while thread 1 passes 2 on its way from 0 -/
def raceRun : List (Fin 2 × Side) :=
  stepsOf Threads.fst 3 ++ stepsOf Threads.snd 14 ++ stepsOf Threads.fst 3 ++ stepsOf Threads.snd 44

/-- vertex 2 apart from the others -/
def apartEdges : List (Fin 6 × Fin 6) :=
  [(Threads.nth 0, Threads.nth 1), (Threads.nth 1, Threads.nth 3), (Threads.nth 3, Threads.nth 4), (Threads.nth 4, Threads.nth 5)]

/-- **The right classes are refused.** Vertex 2 has the entry 4 and is a class of its own, as in the graph, but `num_cc`
is 1. -/
theorem raced_components :
    (∃ u, exec (Dsu.step fun v : Fin 6 => v.val) (Dsu.init chainCalls) (List.replicate 55 (Threads.nth 0, .left)) = some u ∧
      Dsu.Done u ∧ u.parent = chain) ∧
    ∃ s, exec Built.step (Built.start chain (ownedBy (Threads.nth 2))) raceRun = some s ∧ Built.Done s ∧
      (∀ a b, s.object.isConnected a b = true ↔ (oddGraph apartEdges).Reachable a b) ∧
      (((new (fun v => v.val) 0).afterUpdates apartEdges).verifyConnectedComponents s.object).2 =
        .error (.incorrectCC "Incorrect number of components!") := by
  have hmerges : (exec (Dsu.step fun v : Fin 6 => v.val) (Dsu.init chainCalls) (List.replicate 55 (Threads.nth 0, .left))).map
      (fun u => (decide ((u.thr (Threads.nth 0)).cur = none ∧ (u.thr (Threads.nth 0)).todo = []), u.parent)) =
      some (true, chain) := by decide +kernel
  have hrun : (exec Built.step (Built.start chain (ownedBy (Threads.nth 2))) raceRun).map
      (fun s : Built.St 6 2 => (decide (Built.Done s), (List.finRange 6).map s.parentArr, s.tempCc)) =
      some (true, [5, 5, 4, 5, 5, 5], 1) := by decide +kernel
  constructor
  · obtain ⟨u, hu, he⟩ := Option.map_eq_some_iff.1 hmerges
    obtain ⟨hd, hp⟩ := Prod.mk.inj he
    refine ⟨u, hu, fun t => ?_, hp⟩
    rw [show t = Threads.nth 0 from Subsingleton.elim _ _]
    exact of_decide_eq_true hd
  · obtain ⟨s, hs, he⟩ := Option.map_eq_some_iff.1 hrun
    obtain ⟨hd, he⟩ := Prod.mk.inj he
    obtain ⟨harr, hcc⟩ := Prod.mk.inj he
    have hobject : s.object = ⟨![5, 5, 4, 5, 5, 5], 1⟩ := by
      rw [Built.St.object, hcc]
      congr
      funext i
      have hi := congrArg (fun x => x[i.val]?) harr
      fin_cases i <;> simpa using hi
    have hsets := afterUpdates_components (.inl ⟨fun v : Fin 6 => v.val, 0, rfl, rfl⟩) apartEdges
    rw [List.nil_append] at hsets
    refine ⟨s, hs, of_decide_eq_true hd, fun a b => ?_, ?_⟩
    · rw [hobject, ← hsets a b]
      revert a b
      decide +kernel
    · rw [hobject]
      decide +kernel

end GraphVerifier

end GraphStreamingCC
