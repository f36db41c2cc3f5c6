/-
What the verifier stores and what `kruskal` makes of it.

- `cellOf_eq_iff`: an entry of the triangular matrix is an unordered pair. `matrix_iff`: after a stream of toggles an
  entry is set if and only if its edge was toggled an odd number of times, so that the `graph` of the matrix is
  `oddGraph` of the stream.
- `kruskal_spec`: if the flag is set, `kruskal` leaves the components of that graph, and their count.
- `Counted`, `Coherent`: what holds of the cached results behind any sequence of calls, and what should.
-/
import GraphStreamingCC.Core.Parity
import GraphStreamingCC.Verifier.Model

namespace GraphStreamingCC

open ParentForest SpanningForest Parity

variable {n : ℕ}

/-! ## Entries -/

theorem Cell.ext_val {c d : Cell n} (h1 : c.1.val = d.1.val) (h2 : c.2.val = d.2.val) : c = d := by
  obtain ⟨i, j⟩ := c
  obtain ⟨k, l⟩ := d
  obtain rfl : i = k := Fin.ext h1
  obtain rfl : j = l := Fin.ext h2
  rfl

theorem cellOf_comm (u v : Fin n) : cellOf (u, v) = cellOf (v, u) := by
  rcases lt_trichotomy u v with h | rfl | h
  · rw [cellOf, cellOf, dif_neg (not_lt.2 h.le), dif_pos h]
  · rfl
  · rw [cellOf, cellOf, dif_pos h, dif_neg (not_lt.2 h.le)]

theorem cellOf_of_le {u v : Fin n} (h : u ≤ v) : cellOf (u, v) = ⟨u, ⟨v - u, by omega⟩⟩ := dif_neg (not_lt.2 h)

@[simp] theorem cellOf_edge (c : Cell n) : cellOf c.edge = c := by
  have hle : c.edge.1 ≤ c.edge.2 := Fin.le_def.2 (Nat.le_add_right _ _)
  exact (cellOf_of_le hle).trans (Cell.ext_val rfl (Nat.add_sub_cancel_left _ _))

@[simp] theorem pairEdge_cellOf (e : Fin n × Fin n) : pairEdge (cellOf e).edge = pairEdge e := by
  obtain ⟨u, v⟩ := e
  have hle : ∀ {u v : Fin n}, u ≤ v → (cellOf (u, v)).edge = (u, v) := by
    intro u v h
    rw [cellOf_of_le h]
    exact Prod.ext rfl (Fin.ext (Nat.add_sub_cancel' h))
  rcases le_total u v with h | h
  · rw [hle h]
  · rw [cellOf_comm, hle h]
    exact Sym2.eq_swap

/-- an entry is an unordered pair -/
theorem cellOf_eq_iff {e f : Fin n × Fin n} : cellOf e = cellOf f ↔ pairEdge e = pairEdge f := by
  constructor
  · intro h
    rw [← pairEdge_cellOf e, h, pairEdge_cellOf]
  · intro h
    rcases Sym2.eq_iff.1 h with ⟨h1, h2⟩ | ⟨h1, h2⟩
    · rw [Prod.ext h1 h2]
    · rw [show e = (f.2, f.1) from Prod.ext h1 h2]
      exact cellOf_comm f.2 f.1

theorem mem_cells (c : Cell n) : c ∈ cells n :=
  List.mem_flatMap.2 ⟨c.1, List.mem_finRange _, List.mem_map.2 ⟨c.2, List.mem_finRange _, rfl⟩⟩

namespace DisjointSetUnion

/-- the sets are the components of the graph -/
def Components (d : DisjointSetUnion n) (H : SimpleGraph (Fin n)) : Prop := ∀ x y, Same d.parent x y ↔ H.Reachable x y

theorem components_new (priority : Fin n → ℕ) : Components (ofPriority priority) ⊥ := by
  intro x y
  rw [Same, root_ofPriority, root_ofPriority, SimpleGraph.reachable_bot]

theorem Components.merge {d : DisjointSetUnion n} {H : SimpleGraph (Fin n)} (h : d.Components H) (u v : Fin n) :
    (d.merge u v).1.Components (H ⊔ SimpleGraph.edge u v) := by
  intro x y
  rw [merge_same_iff, reachable_sup_edge, h x y, h x u, h y v, h x v, h y u]

theorem Components.congr {d d' : DisjointSetUnion n} {H : SimpleGraph (Fin n)} (h : d.Components H)
    (hroot : ∀ x, root d'.parent x = root d.parent x) : d'.Components H := by
  intro x y
  rw [← h x y, Same, hroot, hroot]
  rfl

theorem Components.roots {d : DisjointSetUnion n} {H : SimpleGraph (Fin n)} (h : d.Components H) :
    d.roots = Nat.card H.ConnectedComponent := card_roots_eq_components d.ordered fun x y => (h x y).symm

end DisjointSetUnion

namespace GraphVerifier

/-! ## The graph of a matrix -/

/-- the graph of the entries that are set; those of the diagonal are no edges -/
def graph (adjMatrix : Cell n → Bool) : SimpleGraph (Fin n) := SimpleGraph.fromRel fun u v => adjMatrix (cellOf (u, v)) = true

theorem graph_adj {adjMatrix : Cell n → Bool} {x y : Fin n} :
    (graph adjMatrix).Adj x y ↔ x ≠ y ∧ adjMatrix (cellOf (x, y)) = true := by
  rw [graph, SimpleGraph.fromRel_adj, cellOf_comm y x, or_self]

theorem toggle_cellOf (adjMatrix : Cell n → Bool) (e f : Fin n × Fin n) :
    toggle adjMatrix e (cellOf f) = if pairEdge f = pairEdge e then !adjMatrix (cellOf f) else adjMatrix (cellOf f) := by
  rw [toggle, Function.update_apply]
  simp only [cellOf_eq_iff]
  split_ifs with h
  · rw [cellOf_eq_iff.2 h]
  · rfl

/-- the matrix after a stream of toggles -/
def matrix (l : List (Fin n × Fin n)) : Cell n → Bool := l.foldl toggle fun _ => false

/-- an entry is set if its edge was toggled an odd number of times -/
theorem matrix_iff (l : List (Fin n × Fin n)) (e : Fin n × Fin n) : matrix l (cellOf e) = true ↔ pairEdge e ∈ oddEdges l := by
  induction l using List.reverseRecOn with
  | nil => simp [matrix, oddEdges]
  | append_singleton l f ih =>
    have hperm : oddEdges (l ++ [f]) = oddEdges (f :: l) := oddSet_congr ((List.perm_append_singleton f l).map pairEdge)
    have hmatrix : matrix (l ++ [f]) = toggle (matrix l) f := List.foldl_append
    rw [hperm, hmatrix, toggle_cellOf, oddEdges, List.map_cons, mem_oddSet_cons]
    split_ifs with h
    · rw [Bool.not_eq_true', ← Bool.not_eq_true, ih]
      rfl
    · exact ih

theorem graph_matrix (l : List (Fin n × Fin n)) : graph (matrix l) = oddGraph l := by
  ext x y
  rw [graph_adj, oddGraph_adj, matrix_iff, and_comm]
  rfl

/-- a matrix is given by its entries at pairs -/
theorem matrix_ext {m m' : Cell n → Bool} (h : ∀ e, m (cellOf e) = m' (cellOf e)) : m = m' := by
  funext c
  rw [← cellOf_edge c]
  exact h c.edge

/-- toggling an edge that is present removes it -/
theorem graph_toggle {m : Cell n → Bool} {e : Fin n × Fin n} (h : m (cellOf e) = true) :
    graph (toggle m e) = graph m \ SimpleGraph.edge e.1 e.2 := by
  ext x y
  rw [SimpleGraph.sdiff_adj, SimpleGraph.edge_adj, graph_adj, graph_adj, toggle_cellOf]
  by_cases he : pairEdge (x, y) = pairEdge e
  · rw [if_pos he, cellOf_eq_iff.2 he, h]
    apply iff_of_false
    · intro hadj
      exact Bool.false_ne_true hadj.2
    · intro hadj
      exact hadj.2 ⟨Sym2.eq_iff.1 he, hadj.1.1⟩
  · rw [if_neg he]
    exact (and_iff_left fun hadj => he (Sym2.eq_iff.2 hadj.1)).symm

/-! ## The cached components -/

theorem kruskal_fold {m : Cell n → Bool} {s : DisjointSetUnion n × ℕ} {pairs : List (Fin n × Fin n)}
    (hsets : DisjointSetUnion.Object.Sets ⟨s.1, pairs⟩) (hcount : s.2 = s.1.roots) (cs : List (Cell n)) :
    DisjointSetUnion.Object.Sets ⟨(cs.foldl (kruskalStep m) s).1, ((cs.filter m).map Cell.edge).reverse ++ pairs⟩ ∧
      (cs.foldl (kruskalStep m) s).2 = (cs.foldl (kruskalStep m) s).1.roots := by
  induction cs generalizing s pairs with
  | nil => exact ⟨hsets, hcount⟩
  | cons c cs ih =>
    rw [List.foldl_cons]
    by_cases hc : m c = true
    · have hstep : kruskalStep m s c = ((s.1.merge c.edge.1 c.edge.2).1,
          if (s.1.merge c.edge.1 c.edge.2).2.merged then s.2 - 1 else s.2) := if_pos hc
      have hroots := s.1.roots_merge c.edge.1 c.edge.2
      rw [hstep, List.filter_cons_of_pos hc, List.map_cons, List.reverse_cons, List.append_assoc]
      refine ih (hsets.merge c.edge.1 c.edge.2) ?_
      rw [hcount]
      split_ifs at hroots ⊢ <;> simp only at hroots ⊢ <;> omega
    · have hstep : kruskalStep m s c = s := if_neg hc
      rw [hstep, List.filter_cons_of_neg hc]
      exact ih hsets hcount

theorem pairGraph_cells (m : Cell n → Bool) : pairGraph (((cells n).filter m).map Cell.edge).reverse = graph m := by
  have hmem : ∀ e : Fin n × Fin n, e ∈ ((cells n).filter m).map Cell.edge → m (cellOf e) = true := by
    intro e he
    obtain ⟨c, hc, rfl⟩ := List.mem_map.1 he
    rw [cellOf_edge]
    exact (List.mem_filter.1 hc).2
  ext x y
  rw [pairGraph_adj, graph_adj, List.mem_reverse, List.mem_reverse]
  refine and_congr_right fun hne => ⟨?_, fun h => ?_⟩
  · rintro (h | h)
    · exact hmem _ h
    · rw [cellOf_comm]
      exact hmem _ h
  · have hcell : (cellOf (x, y)).edge ∈ ((cells n).filter m).map Cell.edge :=
      List.mem_map_of_mem (List.mem_filter.2 ⟨mem_cells _, h⟩)
    rcases Sym2.eq_iff.1 (pairEdge_cellOf (x, y)) with ⟨h1, h2⟩ | ⟨h1, h2⟩
    · rw [show (cellOf (x, y)).edge = (x, y) from Prod.ext h1 h2] at hcell
      exact .inl hcell
    · rw [show (cellOf (x, y)).edge = (y, x) from Prod.ext h1 h2] at hcell
      exact .inr hcell

variable {g : GraphVerifier n}

theorem kruskal_of_valid (h : g.needQueryCompute = false) : g.kruskal = g := by
  rw [kruskal, if_neg (by rw [h]; exact Bool.false_ne_true)]

@[simp] theorem kruskal_adjMatrix : g.kruskal.adjMatrix = g.adjMatrix := by
  unfold kruskal
  split_ifs <;> rfl

@[simp] theorem kruskal_needQueryCompute : g.kruskal.needQueryCompute = false := by
  unfold kruskal
  split_ifs with h
  · rfl
  · exact Bool.eq_false_iff.2 h

/-- **The result of `kruskal`.** The sets are the components of the graph, and the count is that of the sets. -/
theorem kruskal_spec (h : g.needQueryCompute = true) :
    g.kruskal.kruskalDsu.Components (graph g.adjMatrix) ∧ g.kruskal.kruskalCcs = g.kruskal.kruskalDsu.roots := by
  obtain ⟨hsets, hcount⟩ := kruskal_fold (m := g.adjMatrix) (s := (g.kruskalDsu.reset, n))
    (DisjointSetUnion.Object.sets_new g.kruskalDsu.priority) (DisjointSetUnion.roots_ofPriority _).symm (cells n)
  rw [List.append_nil] at hsets
  rw [kruskal, if_pos h, ← pairGraph_cells]
  exact ⟨hsets, hcount⟩

/-- the cached count is that of the cached sets -/
def Counted (g : GraphVerifier n) : Prop := g.needQueryCompute = false → g.kruskalCcs = g.kruskalDsu.roots

/-- if the flag says so, the cached sets are the components of the graph -/
def Coherent (g : GraphVerifier n) : Prop :=
  g.needQueryCompute = false → g.kruskalDsu.Components (graph g.adjMatrix)

theorem Counted.kruskal (h : g.Counted) : g.kruskal.kruskalCcs = g.kruskal.kruskalDsu.roots := by
  cases hq : g.needQueryCompute with
  | true => exact (kruskal_spec hq).2
  | false =>
    rw [kruskal_of_valid hq]
    exact h hq

theorem Coherent.kruskal (h : g.Coherent) : g.kruskal.kruskalDsu.Components (graph g.adjMatrix) := by
  cases hq : g.needQueryCompute with
  | true => exact (kruskal_spec hq).1
  | false =>
    rw [kruskal_of_valid hq]
    exact h hq

theorem counted_of_dirty (h : g.needQueryCompute = true) : g.Counted := by
  intro hv
  rw [h] at hv
  cases hv

theorem coherent_of_dirty (h : g.needQueryCompute = true) : g.Coherent := by
  intro hv
  rw [h] at hv
  cases hv

end GraphVerifier

end GraphStreamingCC
