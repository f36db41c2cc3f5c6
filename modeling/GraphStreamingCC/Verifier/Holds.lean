/-
A verifier that holds the graph of a stream: what its checks say about a graph algorithm.

`Holds`: the matrix is that of the updates, and the cached components are right. `holds_copy`: a copy of a verifier with
this matrix does so at once; every check that is made with it keeps this. What the checks accept:
- `verify_edge`: the edges of the graph;
- `verify_connected_components`: nothing but the components (`components_of_accepted`), and the roots of any union-find whose
  sets are the components (`accepted_of_roots`);
- `verify_spanning_forests` of one forest: what `SpanningForest` lists of the neighbour sets of a spanning forest, in any
  order of iteration (`accepted_forest_iff`).
-/
import GraphStreamingCC.Verifier.Histories

namespace GraphStreamingCC

open Parity ParentForest SpanningForest

variable {n : ℕ}

/-! ## The edges of a forest -/

namespace SpanningForest

/-- these lists are the sets in an order of iteration -/
def Enumerates (order : Fin n → List (Fin n)) (sets : Fin n → Finset (Fin n)) : Prop :=
  ∀ v, (order v).Nodup ∧ (order v).toFinset = sets v

instance (order : Fin n → List (Fin n)) (sets : Fin n → Finset (Fin n)) : Decidable (Enumerates order sets) :=
  inferInstanceAs (Decidable (∀ v, (order v).Nodup ∧ (order v).toFinset = sets v))

/-- `for (src) for (dst : spanning_forest[src]) edges.push_back({src, dst})` -/
def edgesOf (order : Fin n → List (Fin n)) : GraphStreamingCC.SpanningForest n :=
  (List.finRange n).flatMap fun src => (order src).map fun dst => (src, dst)

variable {order : Fin n → List (Fin n)} {sets : Fin n → Finset (Fin n)}

theorem mem_edgesOf (h : Enumerates order sets) {e : Fin n × Fin n} : e ∈ edgesOf order ↔ e.2 ∈ sets e.1 := by
  rw [edgesOf, List.mem_flatMap]
  constructor
  · intro he
    obtain ⟨src, -, he⟩ := he
    obtain ⟨dst, hdst, rfl⟩ := List.mem_map.1 he
    rw [← (h src).2]
    exact List.mem_toFinset.2 hdst
  · intro he
    rw [← (h e.1).2] at he
    exact ⟨e.1, List.mem_finRange _, List.mem_map.2 ⟨e.2, List.mem_toFinset.1 he, rfl⟩⟩

theorem pairGraph_edgesOf (h : Enumerates order sets) : pairGraph (edgesOf order) = setGraph sets := by
  ext x y
  rw [pairGraph_adj, setGraph_adj, mem_edgesOf h, mem_edgesOf h]

theorem nodup_edgesOf (h : Enumerates order sets) : (edgesOf order).Nodup := by
  refine List.nodup_flatMap.2 ⟨fun src _ => ?_, ?_⟩
  · exact (h src).1.map fun a b hab => (Prod.mk.inj hab).2
  · apply (List.nodup_finRange n).imp
    intro u v huv e hu hv
    obtain ⟨a, -, rfl⟩ := List.mem_map.1 hu
    obtain ⟨b, -, hb⟩ := List.mem_map.1 hv
    exact huv (Prod.mk.inj hb).1.symm

end SpanningForest

namespace GraphVerifier

variable {g : GraphVerifier n} {us : List (Fin n × Fin n)}

/-- the matrix depends only on the edges that occur an odd number of times -/
theorem matrix_eq_iff (l l' : List (Fin n × Fin n)) : matrix l = matrix l' ↔ oddEdges l = oddEdges l' := by
  constructor
  · intro h
    ext e
    induction e with
    | h x y =>
      have hx := matrix_iff l (x, y)
      rw [h, matrix_iff] at hx
      exact hx.symm
  · intro h
    apply matrix_ext
    intro e
    rw [Bool.eq_iff_iff, matrix_iff, matrix_iff, h]

theorem matrix_perm {l l' : List (Fin n × Fin n)} (h : l.Perm l') : matrix l = matrix l' :=
  (matrix_eq_iff l l').2 (oddSet_congr (h.map pairEdge))

/-! ## Holding a graph -/

/-- the verifier has the graph of these updates, and no components of another one -/
structure Holds (g : GraphVerifier n) (us : List (Fin n × Fin n)) : Prop where
  adjMatrix : g.adjMatrix = matrix us
  counted : g.Counted
  coherent : g.Coherent

theorem holds_copy (h : g.adjMatrix = matrix us) (kruskalCcs : ℕ) : (g.copy kruskalCcs).Holds us :=
  ⟨h, counted_of_dirty rfl, coherent_of_dirty rfl⟩

theorem Holds.graph_eq (h : g.Holds us) : graph g.adjMatrix = oddGraph us := by
  rw [h.adjMatrix, graph_matrix]

theorem Holds.components (h : g.Holds us) : g.kruskal.kruskalDsu.Components (oddGraph us) := by
  rw [← h.graph_eq]
  exact h.coherent.kruskal

/-- it judges like a new verifier that has been given the updates -/
theorem Holds.verdicts (h : g.Holds us) (priority : Fin n → ℕ) (kruskalCcs : ℕ) {ls ls' : List (Label n)}
    (hls : ls'.map Label.call = ls.map Label.call) :
    g.verdicts ls' = ((new priority kruskalCcs).afterUpdates us).verdicts ls := by
  obtain ⟨hmatrix, hcounted, hcoherent⟩ := afterUpdates_spec (g := new priority kruskalCcs) (counted_of_dirty rfl)
    (coherent_of_dirty rfl) us
  have hadj : g.adjMatrix = ((new priority kruskalCcs).afterUpdates us).adjMatrix := h.adjMatrix.trans hmatrix.symm
  refine verdicts_twin ((twin_iff hcounted hcoherent h.counted hadj).2 ?_) hls
  rw [← hadj, h.graph_eq]
  exact h.components

/-! ## What is accepted -/

/-- `verify_edge` of one edge after the other -/
def verifyEdges (g : GraphVerifier n) : List (Fin n × Fin n) → Verdict
  | [] => .ok ()
  | e :: es =>
    match g.verifyEdge e with
    | .error x => .error x
    | .ok () => verifyEdges g es

theorem Holds.verifyConnectedComponents (h : g.Holds us) (cc : ConnectedComponents n) :
    (g.verifyConnectedComponents cc).1.Holds us := by
  obtain ⟨hadj, -, hcount, hroot⟩ := g.verifyConnectedComponents_fst cc
  refine ⟨hadj.trans h.adjMatrix, fun _ => ?_, fun _ => ?_⟩
  · rw [hcount, h.counted.kruskal]
    exact (DisjointSetUnion.roots_congr hroot).symm
  · rw [hadj]
    exact h.coherent.kruskal.congr hroot

/-- what `connected_components` makes of an array of entries -/
def countFixed (parentArr : Fin n → Fin n) : ConnectedComponents n :=
  ⟨parentArr, (Finset.univ.filter fun v => parentArr v = v).card⟩

/-- **What is accepted is right.** -/
theorem Holds.components_of_accepted (h : g.Holds us) {parentArr : Fin n → Fin n}
    (hok : (g.verifyConnectedComponents (countFixed parentArr)).2 = .ok ()) :
    (∀ a b, parentArr a = parentArr b ↔ (oddGraph us).Reachable a b) ∧
      (Finset.univ.filter fun v => parentArr v = v).card = Nat.card (oddGraph us).ConnectedComponent := by
  obtain ⟨hsize, hrefines⟩ := (accepted_iff _ _).1 hok
  have hsets := h.components
  have hroots := h.counted.kruskal.symm.trans hsize
  refine ⟨fun a b => ?_, ?_⟩
  · rw [← hsets a b]
    exact ⟨same_of_refines _ hrefines hroots, hrefines a b⟩
  · rw [← hsets.roots]
    exact hroots.symm

/-- a call for one forest leaves nothing stale -/
theorem not_stale_one (G : SimpleGraph (Fin n)) (forest : SpanningForest n) : ¬ Stale G [forest] := by
  intro h
  obtain ⟨k, hleaves, hne⟩ := h
  cases k with
  | zero => exact hne fun x y => by rw [rest_zero]
  | succ k =>
    obtain ⟨forest', he, -⟩ := (leaves_succ.1 hleaves).2.untouched
    cases he

theorem Holds.verifySpanningForest (h : g.Holds us) (priority : ℕ → Fin n → ℕ) (forest : SpanningForest n) :
    (g.verifySpanningForests priority [forest]).1.Holds us := by
  have hadj := g.verifySpanningForests_adjMatrix priority [forest]
  have hcounted := verifySpanningForests_counted h.counted priority [forest]
  refine ⟨hadj.trans h.adjMatrix, hcounted, fun hvalid => ?_⟩
  have htwin := (twin_verifySpanningForests_iff h.counted h.coherent priority [forest]).2 (not_stale_one _ _)
  rw [twin_iff h.counted h.coherent hcounted hadj, kruskal_of_valid hvalid] at htwin
  rwa [hadj]

/-- **One forest is accepted** if and only if the sets that it lists are a spanning forest. -/
theorem Holds.accepted_forest_iff (h : g.Holds us) (priority : ℕ → Fin n → ℕ) {order : Fin n → List (Fin n)}
    {sets : Fin n → Finset (Fin n)} (henum : Enumerates order sets) (hlt : ∀ v, ∀ w ∈ sets v, v < w) :
    (g.verifySpanningForests priority [edgesOf order]).2 = .ok () ↔ IsSpanningForest (setGraph sets) (oddGraph us) := by
  have hedges : ∀ e ∈ edgesOf order, e.1 < e.2 := fun e he => hlt e.1 e.2 ((mem_edgesOf henum).1 he)
  rw [verifySpanningForests, verifyForests_iff h.counted h.coherent, h.graph_eq, List.length_singleton, disjointly_cons,
    maximalForest_iff_isSpanningForest (nodup_edgesOf henum) hedges, pairGraph_edgesOf henum]
  exact and_iff_left fun i hi => absurd hi (Nat.not_lt_zero i)

end GraphVerifier

end GraphStreamingCC
