/-
The sequential union-find `DisjointSetUnion` (include/dsu.h).

`findRootLoop` is the loop of `find_root` over the array `parent`, with fuel; it halves the path in place. A
`DisjointSetUnion` carries the order that `order_edge` establishes: every parent is higher in priority, ties broken by
the id. So the loop climbs, n iterations are enough for it (`findRootLoop_spec`), and `findRoot` is what it returns.

- `findRoot_snd`, `findRoot_root`: the root of the item, and no root has changed.
- `merge_spec`: nothing has changed, or exactly the two sets are united. `merge_root`: and what is returned is the two
  roots.
- `sequential_union_find`: any number of objects, under any sequence of operations and copies.
-/
import GraphStreamingCC.Core.Runs
import GraphStreamingCC.Core.SpanningForest
import GraphStreamingCC.Core.Threads
import GraphStreamingCC.Dsu.Invariant

namespace GraphStreamingCC

open Dsu ParentForest SpanningForest Runs

variable {n : ℕ}

/-- the loop of `find_root` at item u: the array behind it and the return value, or none if the fuel does not suffice -/
def findRootLoop : (fuel : ℕ) → (parent : Fin n → Fin n) → (u : Fin n) → Option ((Fin n → Fin n) × Fin n)
  | 0, _, _ => none
  | fuel + 1, parent, u =>
    if parent (parent u) ≠ parent u then
      let parent := Function.update parent u (parent (parent u))
      findRootLoop fuel parent (parent u)
    else some (parent, parent u)

/-- the items above u, which the loop may still come to -/
theorem findRootLoop_of_lt {β : Type*} [LinearOrder β] {rk : Fin n → β} {parent : Fin n → Fin n} {fuel : ℕ}
    (ho : Ordered rk parent)
    (u : Fin n) (hfuel : (Finset.univ.filter fun w => rk u < rk w).card < fuel) :
    ∃ parent', findRootLoop fuel parent u = some (parent', root parent u) ∧ Ordered rk parent' ∧
      ∀ v, root parent' v = root parent v := by
  induction fuel generalizing parent u with
  | zero => exact absurd hfuel (Nat.not_lt_zero _)
  | succ fuel ih =>
    by_cases hgrand : parent (parent u) = parent u
    · -- the parent is the root
      refine ⟨parent, ?_, ho, fun _ => rfl⟩
      have hroot : root parent u = parent u := by
        rw [← ho.root_parent u]
        exact root_of_fixed hgrand
      rw [findRootLoop, if_neg (not_not.2 hgrand), hroot]
    · have hu : parent u ≠ u := by
        intro hu
        rw [hu] at hgrand
        exact hgrand hu
      have h1 := ho u hu
      have h2 := ho (parent u) hgrand
      have hsame : Same parent (parent (parent u)) u := (ho.same_parent (parent u)).trans (ho.same_parent u)
      have hq : Quiet rk parent (Function.update parent u (parent (parent u))) := .inr ⟨u, _, hu, h1.trans h2, hsame, rfl⟩
      have hcard : (Finset.univ.filter fun w => rk (parent (parent u)) < rk w).card < fuel := by
        have hlt : (Finset.univ.filter fun w => rk (parent (parent u)) < rk w).card <
            (Finset.univ.filter fun w => rk u < rk w).card := by
          refine Finset.card_lt_card (Finset.ssubset_iff_of_subset ?_ |>.2 ⟨parent u, ?_, ?_⟩)
          · intro w hw
            exact Finset.mem_filter.2 ⟨Finset.mem_univ w, (h1.trans h2).trans (Finset.mem_filter.1 hw).2⟩
          · exact Finset.mem_filter.2 ⟨Finset.mem_univ _, h1⟩
          · intro hw
            exact absurd (Finset.mem_filter.1 hw).2 (not_lt.2 h2.le)
        omega
      obtain ⟨parent', hloop, ho', hroot⟩ := ih (hq.ordered ho) (parent (parent u)) hcard
      refine ⟨parent', ?_, ho', fun v => (hroot v).trans (hq.root_eq ho v)⟩
      have hvalue : root (Function.update parent u (parent (parent u))) (parent (parent u)) = root parent u :=
        (hq.root_eq ho _).trans hsame
      rw [findRootLoop, if_pos hgrand]
      simp only [Function.update_self]
      rw [hloop, hvalue]

/-- **The loop of `find_root` ends**, at the root, and no root has changed. -/
theorem findRootLoop_spec {β : Type*} [LinearOrder β] {rk : Fin n → β} {parent : Fin n → Fin n}
    (ho : Ordered rk parent) (u : Fin n) :
    ∃ parent', findRootLoop n parent u = some (parent', root parent u) ∧ Ordered rk parent' ∧
      ∀ v, root parent' v = root parent v := by
  refine findRootLoop_of_lt ho u ?_
  have hlt : (Finset.univ.filter fun w => rk u < rk w).card < (Finset.univ : Finset (Fin n)).card :=
    Finset.card_lt_card (Finset.filter_ssubset.2 ⟨u, Finset.mem_univ u, lt_irrefl _⟩)
  rwa [Finset.card_fin] at hlt

structure DisjointSetUnion (n : ℕ) where
  parent : Fin n → Fin n
  priority : Fin n → ℕ
  ordered : Ordered (rank priority) parent

namespace DisjointSetUnion

/-- the constructor, with the priorities that the generator gives -/
def ofPriority (priority : Fin n → ℕ) : DisjointSetUnion n := ⟨id, priority, fun _ hu => absurd rfl hu⟩

theorem findRootLoop_isSome (d : DisjointSetUnion n) (u : Fin n) : (findRootLoop n d.parent u).isSome := by
  obtain ⟨parent', hloop, -⟩ := findRootLoop_spec d.ordered u
  rw [hloop]
  rfl

theorem findRootLoop_get (d : DisjointSetUnion n) (u : Fin n) :
    Ordered (rank d.priority) ((findRootLoop n d.parent u).get (d.findRootLoop_isSome u)).1 ∧
      ((findRootLoop n d.parent u).get (d.findRootLoop_isSome u)).2 = root d.parent u ∧
      ∀ v, root ((findRootLoop n d.parent u).get (d.findRootLoop_isSome u)).1 v = root d.parent v := by
  obtain ⟨parent', hloop, ho, hroot⟩ := findRootLoop_spec d.ordered u
  simp only [hloop, Option.get_some]
  exact ⟨ho, trivial, hroot⟩

def findRoot (d : DisjointSetUnion n) (u : Fin n) : DisjointSetUnion n × Fin n :=
  let x := (findRootLoop n d.parent u).get (d.findRootLoop_isSome u)
  (⟨x.1, d.priority, (d.findRootLoop_get u).1⟩, x.2)

@[simp] theorem findRoot_snd (d : DisjointSetUnion n) (u : Fin n) : (d.findRoot u).2 = root d.parent u :=
  (d.findRootLoop_get u).2.1

@[simp] theorem findRoot_root (d : DisjointSetUnion n) (u v : Fin n) : root (d.findRoot u).1.parent v = root d.parent v :=
  (d.findRootLoop_get u).2.2 v

/-- `parent[b] = a`, if a is above b -/
def link (d : DisjointSetUnion n) (a b : Fin n) (h : rank d.priority b < rank d.priority a) : DisjointSetUnion n :=
  ⟨Function.update d.parent b a, d.priority, d.ordered.update h⟩

theorem orderEdge_lt (priority : Fin n → ℕ) {a b : Fin n} (h : a ≠ b) :
    rank priority (orderEdge priority a b).2 < rank priority (orderEdge priority a b).1 := by
  rcases orderEdge_spec priority h with ⟨he, hlt⟩ | ⟨he, hlt⟩ <;> rw [he] <;> exact hlt

def merge (d : DisjointSetUnion n) (u v : Fin n) : DisjointSetUnion n × DSUMergeRet :=
  let a := d.findRoot u
  let b := a.1.findRoot v
  if h : a.2 = b.2 then (b.1, ⟨false, 0, 0⟩)
  else
    let e := orderEdge b.1.priority a.2 b.2
    (b.1.link e.1 e.2 (orderEdge_lt _ h), ⟨true, e.1, e.2⟩)

def reset (d : DisjointSetUnion n) : DisjointSetUnion n := ofPriority d.priority

/-! ## What a merge does -/

variable (d : DisjointSetUnion n) (u v : Fin n)

/-- the two calls of `find_root` -/
theorem merge_eq : ∃ q : DisjointSetUnion n, q.priority = d.priority ∧ (∀ x, root q.parent x = root d.parent x) ∧
    (root d.parent u = root d.parent v ∧ d.merge u v = (q, ⟨false, 0, 0⟩) ∨
      ∃ a b h, root d.parent u ≠ root d.parent v ∧
        (a = root d.parent u ∧ b = root d.parent v ∨ a = root d.parent v ∧ b = root d.parent u) ∧
        d.merge u v = (q.link a b h, ⟨true, a, b⟩)) := by
  refine ⟨((d.findRoot u).1.findRoot v).1, rfl, fun x => by simp, ?_⟩
  have ha : (d.findRoot u).2 = root d.parent u := d.findRoot_snd u
  have hb : ((d.findRoot u).1.findRoot v).2 = root d.parent v := by
    rw [findRoot_snd, findRoot_root]
  by_cases h : root d.parent u = root d.parent v
  · refine .inl ⟨h, ?_⟩
    rw [merge, dif_pos (ha.trans (h.trans hb.symm))]
  · have hne : (d.findRoot u).2 ≠ ((d.findRoot u).1.findRoot v).2 := fun he => h (ha.symm.trans (he.trans hb))
    refine .inr ⟨_, _, orderEdge_lt _ hne, h, ?_, dif_neg hne⟩
    rcases orderEdge_spec ((d.findRoot u).1.findRoot v).1.priority hne with ⟨he, -⟩ | ⟨he, -⟩
    · rw [he]
      exact .inl ⟨ha, hb⟩
    · rw [he]
      exact .inr ⟨hb, ha⟩

/-- **A merge changes nothing, or it unites the two sets.** -/
theorem merge_spec : (d.merge u v).2.merged = false ∧ Same d.parent u v ∧ (∀ x, root (d.merge u v).1.parent x = root d.parent x) ∨
    (d.merge u v).2.merged = true ∧ ∃ q : DisjointSetUnion n, (∀ x, root q.parent x = root d.parent x) ∧
      q.priority = d.priority ∧ Links (rank d.priority) q.parent (d.merge u v).1.parent u v := by
  obtain ⟨q, hp, hq, ⟨hsame, he⟩ | ⟨a, b, h, hne, hab, he⟩⟩ := d.merge_eq u v
  · rw [he]
    exact .inl ⟨rfl, hsame, hq⟩
  · rw [he]
    refine .inr ⟨rfl, q, hq, hp, a, b, ?_, hp ▸ h, ?_, rfl⟩
    · have hroot : ∀ x, root q.parent (root d.parent x) = root d.parent x := fun x => by
        rw [hq]
        exact root_of_fixed (d.ordered.root_fixed x)
      have hb : root q.parent b = b := by
        rcases hab with ⟨-, rfl⟩ | ⟨-, rfl⟩
        · exact hroot v
        · exact hroot u
      rw [← hb]
      exact q.ordered.root_fixed b
    · have hroot : ∀ x, Same q.parent (root d.parent x) x := fun x => by
        rw [Same, hq, hq]
        exact root_of_fixed (d.ordered.root_fixed x)
      rcases hab with ⟨rfl, rfl⟩ | ⟨rfl, rfl⟩
      · exact .inl ⟨hroot u, hroot v⟩
      · exact .inr ⟨hroot v, hroot u⟩

/-- the sets after a merge -/
theorem merge_same_iff (x y : Fin n) : Same (d.merge u v).1.parent x y ↔
    Same d.parent x y ∨ (Same d.parent x u ∧ Same d.parent y v) ∨ (Same d.parent x v ∧ Same d.parent y u) := by
  rcases d.merge_spec u v with ⟨-, hsame, hroot⟩ | ⟨-, q, hq, hp, hl⟩
  · have hiff : Same (d.merge u v).1.parent x y ↔ Same d.parent x y := by
      rw [Same, hroot, hroot]
      rfl
    rw [hiff]
    constructor
    · exact .inl
    · intro h
      rcases h with h | ⟨h1, h2⟩ | ⟨h1, h2⟩
      · exact h
      · exact h1.trans (hsame.trans h2.symm)
      · exact h1.trans (hsame.symm.trans h2.symm)
  · rw [hl.same_iff (hp ▸ q.ordered) x y]
    simp only [Same, hq]

/-- what is returned says whether the two sets were different -/
theorem merged_iff : (d.merge u v).2.merged = true ↔ ¬ Same d.parent u v := by
  rcases d.merge_spec u v with ⟨hm, hsame, -⟩ | ⟨hm, q, hq, hp, hl⟩
  · rw [hm]
    exact iff_of_false Bool.false_ne_true (not_not.2 hsame)
  · refine iff_of_true hm ?_
    have hne := hl.not_same (hp ▸ q.ordered)
    rwa [Same, hq, hq] at hne

/-- a successful merge returns the root of the united set and the root that the other set had -/
theorem merge_root (h : ¬ Same d.parent u v) : ∃ a b : Fin n, (d.merge u v).2 = ⟨true, a, b⟩ ∧
    (a = root d.parent u ∧ b = root d.parent v ∨ a = root d.parent v ∧ b = root d.parent u) ∧
    root (d.merge u v).1.parent u = a ∧ root (d.merge u v).1.parent v = a := by
  obtain ⟨q, -, hq, ⟨hsame, -⟩ | ⟨a, b, hlt, hne, hab, he⟩⟩ := d.merge_eq u v
  · exact absurd hsame h
  rw [he]
  have hfix : ∀ x, root q.parent (root d.parent x) = root d.parent x := fun x => by
    rw [hq]
    exact root_of_fixed (d.ordered.root_fixed x)
  have ha : root q.parent a = a := by
    rcases hab with ⟨rfl, -⟩ | ⟨rfl, -⟩ <;> exact hfix _
  have hb : root q.parent b = b := by
    rcases hab with ⟨-, rfl⟩ | ⟨-, rfl⟩ <;> exact hfix _
  have hbfix : q.parent b = b := by
    rw [← hb]
    exact q.ordered.root_fixed b
  have hroot : ∀ x, root d.parent x = a ∨ root d.parent x = b → root (q.link a b hlt).parent x = a := by
    intro x hx
    rw [link, Links.root_eq q.ordered hbfix hlt, hq, ha]
    split_ifs with hxb
    · rfl
    · exact hx.resolve_right hxb
  refine ⟨a, b, rfl, hab, ?_⟩
  rcases hab with ⟨ha', hb'⟩ | ⟨ha', hb'⟩
  · exact ⟨hroot u (.inl ha'.symm), hroot v (.inr hb'.symm)⟩
  · exact ⟨hroot u (.inr hb'.symm), hroot v (.inl ha'.symm)⟩

/-- the number of sets -/
def roots : ℕ := (Finset.univ.filter fun w => d.parent w = w).card

/-- a fixed point is its own root -/
theorem fixed_iff (w : Fin n) : d.parent w = w ↔ root d.parent w = w := by
  constructor
  · exact root_of_fixed
  · intro h
    rw [← h]
    exact d.ordered.root_fixed w

theorem roots_congr {d d' : DisjointSetUnion n} (h : ∀ x, root d'.parent x = root d.parent x) : d'.roots = d.roots := by
  unfold roots
  simp only [fixed_iff, h]

/-- a successful merge makes one set less -/
theorem roots_merge : (d.merge u v).1.roots + (if (d.merge u v).2.merged then 1 else 0) = d.roots := by
  rcases d.merge_spec u v with ⟨hm, -, hroot⟩ | ⟨hm, q, hq, hp, hl⟩
  · rw [hm]
    exact roots_congr hroot
  · rw [hm, if_pos rfl, ← roots_congr hq]
    exact hl.card_roots

@[simp] theorem roots_ofPriority (priority : Fin n → ℕ) : (ofPriority priority).roots = n := by
  simp [roots, ofPriority]

@[simp] theorem root_ofPriority (priority : Fin n → ℕ) (u : Fin n) : root (ofPriority priority).parent u = u := root_of_fixed rfl

/-! ## Sequences of operations -/

/-- an object, with the pairs that it was asked to merge since it was constructed or reset; no operation reads them -/
structure Object (n : ℕ) where
  dsu : DisjointSetUnion n
  pairs : List (Fin n × Fin n)

/-- an operation on object k; a copy becomes a further object -/
inductive Op (n : ℕ) where
  | findRoot (k : ℕ) (u : Fin n)
  | merge (k : ℕ) (u v : Fin n)
  | reset (k : ℕ)
  | copy (k : ℕ)

def step (s : List (Object n)) : Op n → Option (List (Object n))
  | .findRoot k u => s[k]?.map fun o => s.set k { o with dsu := (o.dsu.findRoot u).1 }
  | .merge k u v => s[k]?.map fun o => s.set k ⟨(o.dsu.merge u v).1, (u, v) :: o.pairs⟩
  | .reset k => s[k]?.map fun o => s.set k ⟨o.dsu.reset, []⟩
  | .copy k => s[k]?.map fun o => s ++ [o]

def start (priority : Fin n → ℕ) : List (Object n) := [⟨ofPriority priority, []⟩]

/-- the sets are the components of the pairs -/
def Object.Sets (o : Object n) : Prop := ∀ x y, Same o.dsu.parent x y ↔ (pairGraph o.pairs).Reachable x y

theorem Object.sets_new (priority : Fin n → ℕ) : Object.Sets ⟨ofPriority priority, []⟩ := by
  intro x y
  rw [Same, root_ofPriority, root_ofPriority, pairGraph_nil, SimpleGraph.reachable_bot]

theorem Object.Sets.findRoot {o : Object n} (h : o.Sets) (u : Fin n) :
    Object.Sets { o with dsu := (o.dsu.findRoot u).1 } := by
  intro x y
  rw [← h x y, Same, findRoot_root, findRoot_root]
  rfl

theorem Object.Sets.merge {o : Object n} (h : o.Sets) (u v : Fin n) :
    Object.Sets ⟨(o.dsu.merge u v).1, (u, v) :: o.pairs⟩ := by
  intro x y
  rw [merge_same_iff, pairGraph_cons, reachable_sup_edge, h x y, h x u, h y v, h x v, h y u]

theorem step_sets {s s' : List (Object n)} {op : Op n} (h : ∀ o ∈ s, o.Sets) (hs : step s op = some s') : ∀ o ∈ s', o.Sets := by
  have hset : ∀ {k : ℕ} {o : Object n}, o.Sets → ∀ x ∈ s.set k o, x.Sets := by
    intro k o ho x hx
    rcases List.mem_or_eq_of_mem_set hx with hx | rfl
    · exact h x hx
    · exact ho
  cases op with
  | findRoot k u =>
    obtain ⟨o, ho, rfl⟩ := Option.map_eq_some_iff.1 hs
    exact hset ((h o (List.mem_of_getElem? ho)).findRoot u)
  | merge k u v =>
    obtain ⟨o, ho, rfl⟩ := Option.map_eq_some_iff.1 hs
    exact hset ((h o (List.mem_of_getElem? ho)).merge u v)
  | reset k =>
    obtain ⟨o, ho, rfl⟩ := Option.map_eq_some_iff.1 hs
    exact hset (Object.sets_new o.dsu.priority)
  | copy k =>
    obtain ⟨o, ho, rfl⟩ := Option.map_eq_some_iff.1 hs
    intro x hx
    rcases List.mem_append.1 hx with hx | hx
    · exact h x hx
    · rw [List.mem_singleton.1 hx]
      exact h o (List.mem_of_getElem? ho)

/-- `find_root` ends and returns the one root of the item's set, and no set changes; `merge` returns whether the sets
were different, and then the root of the united set and the root that the other set had; the sets are those of the pairs
merged -/
structure Object.Correct (o : Object n) : Prop where
  ends : ∀ u, ∃ parent', findRootLoop n o.dsu.parent u = some (parent', (o.dsu.findRoot u).2)
  root : ∀ u, o.dsu.parent (o.dsu.findRoot u).2 = (o.dsu.findRoot u).2 ∧ Same o.dsu.parent (o.dsu.findRoot u).2 u ∧
    ∀ r, o.dsu.parent r = r → Same o.dsu.parent r u → r = (o.dsu.findRoot u).2
  keeps : ∀ u x y, Same (o.dsu.findRoot u).1.parent x y ↔ Same o.dsu.parent x y
  merged : ∀ u v, (o.dsu.merge u v).2.merged = true ↔ ¬ Same o.dsu.parent u v
  returns : ∀ u v, ¬ Same o.dsu.parent u v → ∃ a b : Fin n, (o.dsu.merge u v).2 = ⟨true, a, b⟩ ∧
    (a = ParentForest.root o.dsu.parent u ∧ b = ParentForest.root o.dsu.parent v ∨
      a = ParentForest.root o.dsu.parent v ∧ b = ParentForest.root o.dsu.parent u) ∧
    ParentForest.root (o.dsu.merge u v).1.parent u = a ∧ ParentForest.root (o.dsu.merge u v).1.parent v = a
  sets : o.Sets

/-- **The sequential union-find is correct.** After any sequence of operations on n items with any priorities, this
holds of every object that the sequence has constructed. -/
theorem sequential_union_find {priority : Fin n → ℕ} {ops : List (Op n)} {s : List (Object n)}
    (hs : exec step (start priority) ops = some s) : ∀ o ∈ s, o.Correct := by
  have hsets : ∀ o ∈ s, o.Sets := by
    refine exec_invariant (I := fun s : List (Object n) => ∀ o ∈ s, o.Sets) step (fun _ _ _ h hs => step_sets h hs) ?_ hs
    intro o ho
    rw [List.mem_singleton.1 ho]
    exact Object.sets_new priority
  intro o ho
  refine ⟨fun u => ?_, fun u => ?_, fun u x y => ?_, fun u v => o.dsu.merged_iff u v,
    fun u v h => o.dsu.merge_root u v h, hsets o ho⟩
  · obtain ⟨parent', hloop, -⟩ := findRootLoop_spec o.dsu.ordered u
    rw [findRoot_snd]
    exact ⟨parent', hloop⟩
  · rw [findRoot_snd]
    refine ⟨o.dsu.ordered.root_fixed u, o.dsu.ordered.same_root u, fun r hr hsame => ?_⟩
    exact (root_of_fixed hr).symm.trans hsame
  · rw [Same, findRoot_root, findRoot_root]
    rfl

/-- three items of one priority; the copy is not reset -/
theorem sequential_union_find_copy : ∃ s, exec step (start fun _ : Fin 3 => 7)
    [.merge 0 (Threads.nth 2) (Threads.nth 1), .copy 0, .reset 0, .merge 1 (Threads.nth 0) (Threads.nth 2)] = some s ∧
    s.length = 2 ∧ ∀ o ∈ s, o.Correct := by
  have hrun : ∃ s, exec step (start fun _ : Fin 3 => 7) [.merge 0 (Threads.nth 2) (Threads.nth 1), .copy 0, .reset 0,
      .merge 1 (Threads.nth 0) (Threads.nth 2)] = some s ∧ s.length = 2 := ⟨_, rfl, rfl⟩
  obtain ⟨s, hs, hlen⟩ := hrun
  exact ⟨s, hs, hlen, sequential_union_find hs⟩

end DisjointSetUnion

end GraphStreamingCC
