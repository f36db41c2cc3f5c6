/-
What occurs an odd number of times in a list, independent of any program.

- `oddSet l`: the elements of odd multiplicity; one more occurrence toggles an element (`mem_oddSet_cons`).
- `sum_map_eq_sum_oddSet`: in a group where everything is its own inverse, a sum over a list is the sum over its odd set.
- `oddGraph l`: the graph of the pairs of odd multiplicity; both orientations of a pair count as one edge.
-/
import Mathlib.Tactic
import Mathlib.Algebra.BigOperators.Group.Finset.Basic
import Mathlib.Combinatorics.SimpleGraph.Operations

namespace GraphStreamingCC.Parity

/-! ## Odd multiplicities -/

section oddSet

variable {α M : Type*} [DecidableEq α] {a b : α} {l : List α}

/-- the elements that occur an odd number of times -/
def oddSet (l : List α) : Finset α := l.toFinset.filter fun a => Odd (l.count a)

theorem mem_oddSet : a ∈ oddSet l ↔ Odd (l.count a) := by
  rw [oddSet, Finset.mem_filter, List.mem_toFinset]
  exact and_iff_right_of_imp fun h => List.count_pos_iff.1 h.pos

@[simp] theorem oddSet_nil : oddSet ([] : List α) = ∅ := rfl

/-- one more occurrence toggles an element -/
theorem mem_oddSet_cons : b ∈ oddSet (a :: l) ↔ if b = a then b ∉ oddSet l else b ∈ oddSet l := by
  rw [mem_oddSet, mem_oddSet, List.count_cons]
  by_cases h : b = a
  · subst h
    simp [Nat.odd_add_one]
  · simp [h, Ne.symm h]

theorem oddSet_congr {l' : List α} (h : l.Perm l') : oddSet l = oddSet l' := by
  ext a
  rw [mem_oddSet, mem_oddSet, h.count_eq]

/-- where everything is its own inverse, only odd multiplicities count -/
theorem sum_map_eq_sum_oddSet [AddCommGroup M] (h2 : ∀ x : M, x + x = 0) (f : α → M) (l : List α) :
    (l.map f).sum = ∑ a ∈ oddSet l, f a := by
  induction l with
  | nil => simp
  | cons a l ih =>
    rw [List.map_cons, List.sum_cons, ih]
    by_cases ha : a ∈ oddSet l
    · have herase : oddSet (a :: l) = (oddSet l).erase a := by
        ext b
        rw [mem_oddSet_cons, Finset.mem_erase]
        split_ifs with hb
        · simp [hb, ha]
        · simp [hb]
      rw [herase, ← Finset.add_sum_erase _ f ha, ← add_assoc, h2, zero_add]
    · have hinsert : oddSet (a :: l) = insert a (oddSet l) := by
        ext b
        rw [mem_oddSet_cons, Finset.mem_insert]
        split_ifs with hb
        · simp [hb, ha]
        · simp [hb]
      rw [hinsert, Finset.sum_insert ha]

end oddSet

/-! ## Graphs -/

section oddGraph

variable {V : Type*} [DecidableEq V] {l : List (V × V)} {x y : V}

/-- the edge of a pair -/
def pairEdge (e : V × V) : Sym2 V := s(e.1, e.2)

/-- the edges that occur an odd number of times, in either orientation -/
def oddEdges (l : List (V × V)) : Finset (Sym2 V) := oddSet (l.map pairEdge)

/-- the graph of these edges; a pair of equal items is no edge -/
def oddGraph (l : List (V × V)) : SimpleGraph V := SimpleGraph.fromEdgeSet (oddEdges l)

theorem oddGraph_adj : (oddGraph l).Adj x y ↔ s(x, y) ∈ oddEdges l ∧ x ≠ y := by
  rw [oddGraph, SimpleGraph.fromEdgeSet_adj, Finset.mem_coe]

theorem oddGraph_nil : oddGraph ([] : List (V × V)) = ⊥ := by
  ext x y
  simp [oddGraph_adj, oddEdges]

theorem mem_oddEdges_cons {u v : V} :
    s(x, y) ∈ oddEdges ((u, v) :: l) ↔ if s(x, y) = s(u, v) then s(x, y) ∉ oddEdges l else s(x, y) ∈ oddEdges l := by
  rw [oddEdges, List.map_cons, mem_oddSet_cons]
  rfl

/-- another edge stays as it was -/
theorem oddGraph_cons_of_ne {u v : V} (h : s(x, y) ≠ s(u, v)) :
    (oddGraph ((u, v) :: l)).Adj x y ↔ (oddGraph l).Adj x y := by
  rw [oddGraph_adj, oddGraph_adj, mem_oddEdges_cons, if_neg h]

/-- an edge that was absent is now present -/
theorem oddGraph_cons_of_not_adj {u v : V} (h : ¬ (oddGraph l).Adj u v) :
    oddGraph ((u, v) :: l) = oddGraph l ⊔ SimpleGraph.edge u v := by
  ext x y
  rw [SimpleGraph.sup_adj, SimpleGraph.edge_adj]
  by_cases he : s(x, y) = s(u, v)
  · have hxy := Sym2.eq_iff.1 he
    have hn : s(x, y) ∈ oddEdges l → x = y := by
      intro hm
      by_contra hne
      rw [he] at hm
      refine h (oddGraph_adj.2 ⟨hm, ?_⟩)
      rintro rfl
      rcases hxy with ⟨rfl, rfl⟩ | ⟨rfl, rfl⟩ <;> exact hne rfl
    rw [oddGraph_adj, oddGraph_adj, mem_oddEdges_cons, if_pos he]
    constructor
    · rintro ⟨-, hne⟩
      exact .inr ⟨hxy, hne⟩
    · rintro (⟨hm, hne⟩ | ⟨-, hne⟩)
      · exact absurd (hn hm) hne
      · exact ⟨fun hm => hne (hn hm), hne⟩
  · rw [oddGraph_cons_of_ne he]
    refine ⟨.inl, ?_⟩
    rintro (h' | ⟨h', -⟩)
    · exact h'
    · exact absurd (Sym2.eq_iff.2 h') he

theorem oddGraph_congr {l' : List (V × V)} (h : (l.map pairEdge).Perm (l'.map pairEdge)) : oddGraph l = oddGraph l' := by
  rw [oddGraph, oddGraph, oddEdges, oddEdges, oddSet_congr h]

end oddGraph

end GraphStreamingCC.Parity
