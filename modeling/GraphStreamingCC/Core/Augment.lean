/-
Forests as lists of edges that are taken out of a graph one by one, independent of any program.

- `Augments H G l`: each edge of the list joins two components of the forest H and is in the graph G, when the ones
  before it have been moved from G to H. `augments_iff`: this says that the list is a forest beside H whose edges are in
  G.
- `MaximalForest G l`: a forest of edges of G that connects what G connects.
- `rest G ls k`: what is left of G without the first k lists.
-/
import GraphStreamingCC.Core.Parity
import GraphStreamingCC.Core.SpanningForest

namespace GraphStreamingCC.SpanningForest

open Parity

variable {V : Type*} {G H : SimpleGraph V} {l : List (V × V)} {e : V × V}

/-- each edge joins two components of H and is in G; then it goes from G to H -/
def Augments (H G : SimpleGraph V) : List (V × V) → Prop
  | [] => True
  | e :: l => ¬ H.Reachable e.1 e.2 ∧ G.Adj e.1 e.2 ∧ Augments (H ⊔ SimpleGraph.edge e.1 e.2) (G \ SimpleGraph.edge e.1 e.2) l

theorem pairGraph_cons_eq (e : V × V) (l : List (V × V)) : pairGraph (e :: l) = pairGraph l ⊔ SimpleGraph.edge e.1 e.2 :=
  pairGraph_cons e.1 e.2 l

theorem edge_adj_iff {u v : V} (h : u ≠ v) : (SimpleGraph.edge e.1 e.2).Adj u v ↔ pairEdge (u, v) = pairEdge e := by
  rw [SimpleGraph.edge_adj, and_iff_left h, pairEdge, pairEdge, Sym2.eq_iff]

/-- a list of edges is taken completely if and only if it is a forest beside H whose edges are in G -/
theorem augments_iff (hH : H.IsAcyclic) (hHG : ∀ u v, H.Adj u v → ¬ G.Adj u v) :
    Augments H G l ↔ (l.map pairEdge).Nodup ∧ (∀ e ∈ l, G.Adj e.1 e.2) ∧ (H ⊔ pairGraph l).IsAcyclic := by
  induction l generalizing H G with
  | nil => simp [Augments, hH]
  | cons e l ih =>
    have hgraph : H ⊔ pairGraph (e :: l) = H ⊔ SimpleGraph.edge e.1 e.2 ⊔ pairGraph l := by
      rw [pairGraph_cons_eq, sup_assoc, sup_comm (pairGraph l)]
    rw [Augments, List.map_cons, List.nodup_cons, List.forall_mem_cons, hgraph]
    have hdisjoint : ∀ u v, (H ⊔ SimpleGraph.edge e.1 e.2).Adj u v → ¬ (G \ SimpleGraph.edge e.1 e.2).Adj u v := by
      intro u v h hG
      rw [SimpleGraph.sdiff_adj] at hG
      rcases h with h | h
      · exact hHG u v h hG.1
      · exact hG.2 h
    constructor
    · intro h
      obtain ⟨hnr, hadj, haug⟩ := h
      obtain ⟨hnodup, hl, hacyclic⟩ := (ih (hH.sup_edge_of_not_reachable hnr) hdisjoint).1 haug
      refine ⟨⟨fun hmem => ?_, hnodup⟩, ⟨hadj, fun f hf => ((SimpleGraph.sdiff_adj ..).1 (hl f hf)).1⟩, hacyclic⟩
      obtain ⟨f, hf, he⟩ := List.mem_map.1 hmem
      have hrest := (SimpleGraph.sdiff_adj ..).1 (hl f hf)
      exact hrest.2 ((edge_adj_iff hrest.1.ne).2 he)
    · intro h
      obtain ⟨⟨hnew, hnodup⟩, ⟨hadj, hl⟩, hacyclic⟩ := h
      have hsup : (H ⊔ SimpleGraph.edge e.1 e.2).IsAcyclic := hacyclic.anti le_sup_left
      have hnr : ¬ H.Reachable e.1 e.2 := by
        intro hr
        rcases (SimpleGraph.isAcyclic_sup_fromEdgeSet_iff.1 hsup).2 hr with he | he
        · exact hadj.ne he
        · exact hHG _ _ he hadj
      refine ⟨hnr, hadj, (ih hsup hdisjoint).2 ⟨hnodup, fun f hf => ?_, hacyclic⟩⟩
      refine (SimpleGraph.sdiff_adj ..).2 ⟨hl f hf, fun hedge => hnew (List.mem_map.2 ⟨f, hf, ?_⟩)⟩
      exact (edge_adj_iff (hl f hf).ne).1 hedge

/-- a forest of edges of G, none of them twice, that connects what G connects -/
structure MaximalForest (G : SimpleGraph V) (l : List (V × V)) : Prop where
  loopless : ∀ e ∈ l, e.1 ≠ e.2
  nodup : (l.map pairEdge).Nodup
  acyclic : (pairGraph l).IsAcyclic
  sub : ∀ e ∈ l, G.Adj e.1 e.2
  spans : ∀ u v, (pairGraph l).Reachable u v ↔ G.Reachable u v

theorem pairGraph_le (h : ∀ e ∈ l, G.Adj e.1 e.2) : pairGraph l ≤ G := by
  intro u v huv
  rcases (pairGraph_adj.1 huv).2 with hm | hm
  · exact h _ hm
  · exact (h _ hm).symm

theorem maximalForest_iff :
    MaximalForest G l ↔ Augments ⊥ G l ∧ ∀ u v, G.Reachable u v → (pairGraph l).Reachable u v := by
  rw [augments_iff SimpleGraph.isAcyclic_bot fun u v h => h.elim, bot_sup_eq]
  constructor
  · intro h
    exact ⟨⟨h.nodup, h.sub, h.acyclic⟩, fun u v => (h.spans u v).2⟩
  · intro h
    obtain ⟨⟨hnodup, hsub, hacyclic⟩, hspans⟩ := h
    exact ⟨fun e he => (hsub e he).ne, hnodup, hacyclic, hsub, fun u v => ⟨fun hr => hr.mono (pairGraph_le hsub), hspans u v⟩⟩

/-- a list of different pairs, the smaller item first, has no edge twice -/
theorem nodup_pairEdge [LinearOrder V] (hnodup : l.Nodup) (hlt : ∀ e ∈ l, e.1 < e.2) : (l.map pairEdge).Nodup := by
  apply hnodup.map_on
  intro e he f hf hpair
  rcases Sym2.eq_iff.1 hpair with ⟨h1, h2⟩ | ⟨h1, h2⟩
  · exact Prod.ext h1 h2
  · have hef := hlt e he
    rw [h1, h2] at hef
    exact absurd (hlt f hf) hef.not_gt

/-- then it is a maximal forest if its graph is one -/
theorem maximalForest_iff_isSpanningForest [LinearOrder V] (hnodup : l.Nodup) (hlt : ∀ e ∈ l, e.1 < e.2) :
    MaximalForest G l ↔ IsSpanningForest (pairGraph l) G := by
  constructor
  · intro h
    exact ⟨pairGraph_le h.sub, h.acyclic, fun u v => (h.spans u v).2⟩
  · intro h
    have hsub : ∀ e ∈ l, G.Adj e.1 e.2 := fun e he => h.le (pairGraph_adj.2 ⟨(hlt e he).ne, .inl he⟩)
    exact ⟨fun e he => (hlt e he).ne, nodup_pairEdge hnodup hlt, h.acyclic, hsub, h.reachable_iff⟩

/-! ## Lists of forests -/

/-- what is left of G without the first k lists -/
def rest (G : SimpleGraph V) (ls : List (List (V × V))) (k : ℕ) : SimpleGraph V := G \ pairGraph (ls.take k).flatten

theorem pairGraph_append (l m : List (V × V)) : pairGraph (l ++ m) = pairGraph l ⊔ pairGraph m := by
  ext x y
  simp only [pairGraph_adj, SimpleGraph.sup_adj, List.mem_append]
  tauto

@[simp] theorem rest_zero (G : SimpleGraph V) (ls : List (List (V × V))) : rest G ls 0 = G := by
  rw [rest, List.take_zero, List.flatten_nil, pairGraph_nil, sdiff_bot]

@[simp] theorem rest_succ (G : SimpleGraph V) (l : List (V × V)) (ls : List (List (V × V))) (k : ℕ) :
    rest G (l :: ls) (k + 1) = rest (G \ pairGraph l) ls k := by
  rw [rest, rest, List.take_succ_cons, List.flatten_cons, pairGraph_append, sdiff_sdiff]

/-- each of the first k lists is a maximal forest of what those before it have left -/
def Disjointly (G : SimpleGraph V) (ls : List (List (V × V))) (k : ℕ) : Prop :=
  ∀ i < k, ∀ l, ls[i]? = some l → MaximalForest (rest G ls i) l

theorem disjointly_cons {l : List (V × V)} {ls : List (List (V × V))} {k : ℕ} :
    Disjointly G (l :: ls) (k + 1) ↔ MaximalForest G l ∧ Disjointly (G \ pairGraph l) ls k := by
  constructor
  · intro h
    refine ⟨?_, fun i hi m hm => ?_⟩
    · have := h 0 k.succ_pos l rfl
      rwa [rest_zero] at this
    · have := h (i + 1) (Nat.succ_lt_succ hi) m hm
      rwa [rest_succ] at this
  · intro h i hi m hm
    cases i with
    | zero =>
      cases hm
      rw [rest_zero]
      exact h.1
    | succ i =>
      rw [rest_succ]
      exact h.2 i (Nat.lt_of_succ_lt_succ hi) m hm

end GraphStreamingCC.SpanningForest
