/-
What calls leave behind: `verify_spanning_forests` and the cache, and `combine` and the cache.

- `Leaves`: a list of forests comes to forest k and takes no edge of it. `left_behind`, `not_left_behind`: then, and
  only then, the cached components are those of what was left of the graph, and the flag says that they are valid,
  although the matrix is restored.
- `unchanged_iff`: exactly when these are other components than those of the graph, the call is noticed by later ones.
- `Seen`: every way to make a verifier, and the stream that it has seen. `combine_verdicts_iff`: `combine` leaves the
  flag alone.
-/
import GraphStreamingCC.Core.Runs
import GraphStreamingCC.Verifier.Twins

namespace GraphStreamingCC.GraphVerifier

open ParentForest SpanningForest Parity DisjointSetUnion Runs

variable {n : ℕ} {g : GraphVerifier n} {G : SimpleGraph (Fin n)}

/-! ## The cached count -/

/-- no call breaks the cached count -/
theorem verifyForests_counted (h : g.Counted) (backup : Cell n → Bool) (priority : ℕ → Fin n → ℕ)
    (sfs : List (SpanningForest n)) : (verifyForests backup priority g sfs).1.Counted := by
  induction sfs generalizing g priority with
  | nil => exact h
  | cons forest sfs ih =>
    have hcount := h.kruskal
    obtain ⟨hdsu, hccs, -⟩ := takeForest_cached g.kruskal (ofPriority (priority 0)) forest
    rw [← hdsu, ← hccs] at hcount
    rw [verifyForests]
    rcases htake : takeForest g.kruskal (ofPriority (priority 0)) forest with ⟨k, x | f⟩ <;> rw [htake] at hcount
    · exact fun _ => hcount
    · have hroot := compareRoots_fst (fun _ => none) k.kruskalDsu f (List.finRange n)
      simp only
      rcases hcmp : compareRoots (fun _ => none) k.kruskalDsu f (List.finRange n) with ⟨d, x | ⟨⟩⟩ <;> rw [hcmp] at hroot
      · exact fun _ => hcount.trans (roots_congr hroot).symm
      · exact ih (g := { k with kruskalDsu := d }) (fun _ => hcount.trans (roots_congr hroot).symm) _

theorem verifySpanningForests_counted (h : g.Counted) (priority : ℕ → Fin n → ℕ) (sfs : List (SpanningForest n)) :
    (g.verifySpanningForests priority sfs).1.Counted := verifyForests_counted h g.adjMatrix priority sfs

theorem verifySpanningForests_adjMatrix (g : GraphVerifier n) (priority : ℕ → Fin n → ℕ) (sfs : List (SpanningForest n)) :
    (g.verifySpanningForests priority sfs).1.adjMatrix = g.adjMatrix := verifyForests_adjMatrix g.adjMatrix priority g sfs

theorem call_counted (h : g.Counted) (l : Label n) : (g.call l).1.Counted := by
  unfold call
  cases l.call with
  | edgeUpdate src dst =>
    simp only [edgeUpdate]
    split_ifs
    · exact h
    · exact counted_of_dirty rfl
  | verifyEdge e => exact h
  | verifyConnectedComponents cc =>
    obtain ⟨-, -, hcount, hroot⟩ := g.verifyConnectedComponents_fst cc
    intro _
    rw [hcount, h.kruskal]
    exact (roots_congr hroot).symm
  | verifySpanningForests sfs => exact verifySpanningForests_counted h l.priority sfs

/-! ## What the forests leave in the cache -/

/-- the forests before number k are accepted, and none of its edges is taken -/
structure Leaves (G : SimpleGraph (Fin n)) (sfs : List (SpanningForest n)) (k : ℕ) : Prop where
  accepted : Disjointly G sfs k
  untouched : ∃ forest, sfs[k]? = some forest ∧ ¬ Touches (rest G sfs k) forest

/-- the call leaves components in the cache that are not those of the graph -/
def Stale (G : SimpleGraph (Fin n)) (sfs : List (SpanningForest n)) : Prop :=
  ∃ k, Leaves G sfs k ∧ ¬ ∀ x y, (rest G sfs k).Reachable x y ↔ G.Reachable x y

theorem leaves_zero {forest : SpanningForest n} {sfs : List (SpanningForest n)} :
    Leaves G (forest :: sfs) 0 ↔ ¬ Touches G forest := by
  constructor
  · intro h
    obtain ⟨forest', he, hno⟩ := h.untouched
    cases he
    rwa [rest_zero] at hno
  · intro h
    exact ⟨fun i hi => absurd hi (Nat.not_lt_zero i), forest, rfl, by rwa [rest_zero]⟩

theorem leaves_succ {forest : SpanningForest n} {sfs : List (SpanningForest n)} {k : ℕ} :
    Leaves G (forest :: sfs) (k + 1) ↔ MaximalForest G forest ∧ Leaves (G \ pairGraph forest) sfs k := by
  constructor
  · intro h
    obtain ⟨hmax, hrest⟩ := disjointly_cons.1 h.accepted
    obtain ⟨forest', he, hno⟩ := h.untouched
    rw [rest_succ] at hno
    exact ⟨hmax, hrest, forest', he, hno⟩
  · intro h
    obtain ⟨hmax, hrest, forest', he, hno⟩ := h
    exact ⟨disjointly_cons.2 ⟨hmax, hrest⟩, forest', he, by rwa [rest_succ]⟩

/-- a graph without edges, as an accepted empty forest shows it -/
theorem eq_bot_of_nil (h : MaximalForest G []) : G = ⊥ := by
  ext x y
  refine iff_of_false (fun hadj => ?_) fun h => h
  have hr := (h.spans x y).2 hadj.reachable
  rw [pairGraph_nil, SimpleGraph.reachable_bot] at hr
  exact hadj.ne hr

/-- the cached components are valid and those of H -/
def Cached (g : GraphVerifier n) (H : SimpleGraph (Fin n)) : Prop := g.needQueryCompute = false ∧ g.kruskalDsu.Components H

theorem Walked.cached {forest : SpanningForest n} (h : Walked G forest g) (hno : ¬ Touches G forest) : g.Cached G :=
  ⟨Bool.eq_false_iff.2 fun hf => hno (h.flag.1 hf), h.sets⟩

/-- without an edge, nothing is taken and the cache stays -/
theorem left_behind_bot (hcounted : g.Counted) (hcached : g.Cached ⊥) (hgraph : graph g.adjMatrix = ⊥) (backup : Cell n → Bool)
    (priority : ℕ → Fin n → ℕ) (sfs : List (SpanningForest n)) : (verifyForests backup priority g sfs).1.Cached ⊥ := by
  induction sfs generalizing g priority with
  | nil => exact hcached
  | cons forest sfs ih =>
    have hcoherent : g.Coherent := fun _ => hgraph ▸ hcached.2
    have hno : ¬ Touches (⊥ : SimpleGraph (Fin n)) forest := by
      intro h
      obtain ⟨e, -, hadj⟩ := h
      exact hadj
    rcases forest_step hcounted hcoherent backup priority forest sfs with ⟨-, g', x, hw, he⟩ | ⟨-, g', hw, hg', he⟩ <;>
      rw [he] <;> rw [hgraph] at hw
    · exact hw.cached hno
    · rw [hgraph, bot_sdiff] at hg'
      exact ih hw.counted (hw.cached hno) hg' _

/-- **What is left behind.** If no edge of forest k is taken, its graph stays in the cache. -/
theorem left_behind (hcounted : g.Counted) (hcoherent : g.Coherent) (backup : Cell n → Bool) (priority : ℕ → Fin n → ℕ)
    {sfs : List (SpanningForest n)} {k : ℕ} (h : Leaves (graph g.adjMatrix) sfs k) :
    (verifyForests backup priority g sfs).1.Cached (rest (graph g.adjMatrix) sfs k) := by
  induction sfs generalizing g priority k with
  | nil =>
    obtain ⟨forest, he, -⟩ := h.untouched
    cases he
  | cons forest sfs ih =>
    rcases forest_step hcounted hcoherent backup priority forest sfs with ⟨hno, g', x, hw, he⟩ | ⟨hmax, g', hw, hgraph, he⟩ <;>
      rw [he]
    · cases k with
      | zero =>
        rw [rest_zero]
        exact hw.cached (leaves_zero.1 h)
      | succ k => exact absurd (leaves_succ.1 h).1 hno
    · cases k with
      | zero =>
        -- the forest is empty, so the graph has no edge
        have huntouched := leaves_zero.1 h
        have hcached := hw.cached huntouched
        have hnil := nil_of_not_touches hmax huntouched
        rw [hnil] at hmax hgraph
        have hbot := eq_bot_of_nil hmax
        rw [hbot, bot_sdiff] at hgraph
        rw [hbot] at hcached
        rw [rest_zero, hbot]
        exact left_behind_bot hw.counted hcached hgraph _ _ sfs
      | succ k =>
        have hnext := (leaves_succ.1 h).2
        rw [← hgraph] at hnext
        rw [rest_succ, ← hgraph]
        exact ih hw.counted (hw.coherent hmax hgraph) _ hnext

/-- otherwise the flag is set, or no forest was given -/
theorem not_left_behind (hcounted : g.Counted) (hcoherent : g.Coherent) (backup : Cell n → Bool) (priority : ℕ → Fin n → ℕ)
    {sfs : List (SpanningForest n)} (hsfs : sfs ≠ []) (h : ∀ k, ¬ Leaves (graph g.adjMatrix) sfs k) :
    (verifyForests backup priority g sfs).1.needQueryCompute = true := by
  induction sfs generalizing g priority with
  | nil => exact absurd rfl hsfs
  | cons forest sfs ih =>
    have htouches : Touches (graph g.adjMatrix) forest := by
      by_contra hno
      exact h 0 (leaves_zero.2 hno)
    rcases forest_step hcounted hcoherent backup priority forest sfs with ⟨-, g', x, hw, he⟩ | ⟨hmax, g', hw, hgraph, he⟩ <;>
      rw [he]
    · exact hw.flag.2 htouches
    · cases sfs with
      | nil => exact hw.flag.2 htouches
      | cons forest' sfs =>
        refine ih hw.counted (hw.coherent hmax hgraph) _ (List.cons_ne_nil _ _) fun k hk => ?_
        rw [hgraph] at hk
        exact h (k + 1) (leaves_succ.2 ⟨hmax, hk⟩)

/-- **The verifier behind the call** is a twin of the one before it, if and only if what is left in the cache is right. -/
theorem twin_verifySpanningForests_iff (hcounted : g.Counted) (hcoherent : g.Coherent) (priority : ℕ → Fin n → ℕ)
    (sfs : List (SpanningForest n)) :
    Twin g (g.verifySpanningForests priority sfs).1 ↔ ¬ Stale (graph g.adjMatrix) sfs := by
  rw [twin_iff hcounted hcoherent (verifySpanningForests_counted hcounted priority sfs)
    (g.verifySpanningForests_adjMatrix priority sfs)]
  by_cases hleaves : ∃ k, Leaves (graph g.adjMatrix) sfs k
  · have hcached : ∀ k, Leaves (graph g.adjMatrix) sfs k →
        (g.verifySpanningForests priority sfs).1.kruskal.kruskalDsu.Components (rest (graph g.adjMatrix) sfs k) := by
      intro k hk
      obtain ⟨hvalid, hsets⟩ := left_behind hcounted hcoherent g.adjMatrix priority hk
      rw [verifySpanningForests, kruskal_of_valid hvalid]
      exact hsets
    constructor
    · intro hsets hstale
      obtain ⟨k, hk, hne⟩ := hstale
      exact hne fun x y => (hcached k hk x y).symm.trans (hsets x y)
    · intro hfresh
      obtain ⟨k, hk⟩ := hleaves
      have hsame : ∀ x y, (rest (graph g.adjMatrix) sfs k).Reachable x y ↔ (graph g.adjMatrix).Reachable x y := by
        by_contra hne
        exact hfresh ⟨k, hk, hne⟩
      exact fun x y => (hcached k hk x y).trans (hsame x y)
  · have hfresh : ¬ Stale (graph g.adjMatrix) sfs := by
      intro hstale
      obtain ⟨k, hk, -⟩ := hstale
      exact hleaves ⟨k, hk⟩
    refine iff_of_true ?_ hfresh
    cases sfs with
    | nil => exact hcoherent.kruskal
    | cons forest sfs =>
      have hdirty := not_left_behind hcounted hcoherent g.adjMatrix priority (List.cons_ne_nil forest sfs)
        fun k hk => hleaves ⟨k, hk⟩
      have hsets := (kruskal_spec hdirty).1
      rwa [verifyForests_adjMatrix] at hsets

/-! ## Runs -/

/-- the condition on a call -/
def Fresh (g : GraphVerifier n) (l : Label n) : Prop :=
  ∀ sfs, l.call = .verifySpanningForests sfs → ¬ Stale (graph g.adjMatrix) sfs

/-- one edge -/
def oneEdge : GraphVerifier 2 := (new (fun _ => 7) 0).afterUpdates [(Threads.fst, Threads.snd)]

/-- the right answer for it -/
def oneComponent : ConnectedComponents 2 := ⟨fun _ => Threads.snd, 1⟩

/-- the edge that a call toggles -/
def Call.edge : Call n → Option (Fin n × Fin n)
  | .edgeUpdate src dst => if h : src < n ∧ dst < n then some (⟨src, h.1⟩, ⟨dst, h.2⟩) else none
  | _ => none

/-- the verifier has seen the stream -/
inductive Seen : GraphVerifier n → List (Fin n × Fin n) → Prop where
  | new (priority kruskalCcs) : Seen (new priority kruskalCcs) []
  | ofCumulFile (priority kruskalCcs edges) : Seen (ofCumulFile priority kruskalCcs edges) edges
  | call {g edges} (h : Seen g edges) (l : Label n) : Seen (g.call l).1 (edges ++ l.call.edge.toList)
  | combine {g h a b} (hg : Seen g a) (hh : Seen h b) : Seen (g.combine h) (a ++ b)
  | copy {g edges} (h : Seen g edges) (kruskalCcs) : Seen (g.copy kruskalCcs) edges

theorem call_adjMatrix (g : GraphVerifier n) (l : Label n) :
    (g.call l).1.adjMatrix = l.call.edge.toList.foldl toggle g.adjMatrix := by
  unfold call
  cases l.call with
  | edgeUpdate src dst =>
    by_cases hin : src < n ∧ dst < n
    · have hout : ¬ (src ≥ n ∨ dst ≥ n) := by omega
      simp only [edgeUpdate, dif_neg hout, Call.edge, dif_pos hin, Option.toList_some, List.foldl_cons, List.foldl_nil]
    · have hout : src ≥ n ∨ dst ≥ n := by omega
      simp only [edgeUpdate_of_out hout, Call.edge, dif_neg hin, Option.toList_none, List.foldl_nil]
  | verifyEdge e => rfl
  | verifyConnectedComponents cc => exact (g.verifyConnectedComponents_fst cc).1
  | verifySpanningForests sfs => exact g.verifySpanningForests_adjMatrix l.priority sfs

/-- an edge is in both streams together an odd number of times if it is so in one of them -/
theorem matrix_combine (a b : List (Fin n × Fin n)) : (fun c => matrix a c != matrix b c) = matrix (a ++ b) := by
  refine matrix_ext fun e => ?_
  have hodd : pairEdge e ∈ oddEdges (a ++ b) ↔ (pairEdge e ∈ oddEdges a ↔ pairEdge e ∉ oddEdges b) := by
    rw [oddEdges, oddEdges, oddEdges, List.map_append, mem_oddSet, mem_oddSet, mem_oddSet, List.count_append, Nat.odd_add,
      Nat.not_odd_iff_even]
  rw [← matrix_iff, ← matrix_iff, ← matrix_iff] at hodd
  rw [Bool.eq_iff_iff, hodd]
  cases matrix a (cellOf e) <;> cases matrix b (cellOf e) <;> simp

theorem Seen.adjMatrix {edges : List (Fin n × Fin n)} (h : Seen g edges) : g.adjMatrix = matrix edges := by
  induction h with
  | new => rfl
  | ofCumulFile => exact kruskal_adjMatrix
  | call _ l ih => rw [call_adjMatrix, ih, ← matrix_append]
  | combine _ _ ihg ihh => rw [← matrix_combine, ← ihg, ← ihh]; rfl
  | copy _ _ ih => exact ih

theorem Seen.counted {edges : List (Fin n × Fin n)} (h : Seen g edges) : g.Counted := by
  induction h with
  | new => exact counted_of_dirty rfl
  | ofCumulFile => exact fun _ => (kruskal_spec rfl).2
  | call _ l ih => exact call_counted ih l
  | combine _ _ ihg _ => exact ihg
  | copy => exact counted_of_dirty rfl

/-- **Combining verifiers.** A and B are made in any way and have seen a and b. `A.combine(B)` and every copy of it have
the verdicts of a fresh verifier that has seen a and then b, in all sequences of calls, if and only if A was to compute
its components anyway, or those in its cache happen to be right. -/
theorem combine_verdicts_iff {A B : GraphVerifier n} {a b : List (Fin n × Fin n)} (hA : Seen A a) (hB : Seen B b)
    (priority : Fin n → ℕ) (kruskalCcs : ℕ) :
    (∀ ls ls' : List (Label n), ls'.map Label.call = ls.map Label.call →
      (A.combine B).verdicts ls' = ((new priority kruskalCcs).afterUpdates (a ++ b)).verdicts ls ∧
      ∀ copied, ((A.combine B).copy copied).verdicts ls' = ((new priority kruskalCcs).afterUpdates (a ++ b)).verdicts ls) ↔
    A.needQueryCompute = true ∨ A.kruskalDsu.Components (oddGraph (a ++ b)) := by
  have hcombine := hA.combine hB
  obtain ⟨hmatrix, hcounted, hcoherent⟩ := afterUpdates_spec (g := new priority kruskalCcs) (counted_of_dirty rfl)
    (coherent_of_dirty rfl) (a ++ b)
  have hadj : (A.combine B).adjMatrix = ((new priority kruskalCcs).afterUpdates (a ++ b)).adjMatrix :=
    hcombine.adjMatrix.trans hmatrix.symm
  have hgraph : graph ((new priority kruskalCcs).afterUpdates (a ++ b)).adjMatrix = oddGraph (a ++ b) := by
    rw [← hadj, hcombine.adjMatrix, graph_matrix]
  -- the copy computes its components
  have hcopy : ∀ copied, Twin ((new priority kruskalCcs).afterUpdates (a ++ b)) ((A.combine B).copy copied) := by
    intro copied
    have hcounted' : ((A.combine B).copy copied).Counted := counted_of_dirty rfl
    rw [twin_iff hcounted hcoherent hcounted' hadj, ← hadj]
    exact (kruskal_spec (g := (A.combine B).copy copied) rfl).1
  have hsets : Twin ((new priority kruskalCcs).afterUpdates (a ++ b)) (A.combine B) ↔
      A.needQueryCompute = true ∨ A.kruskalDsu.Components (oddGraph (a ++ b)) := by
    rw [twin_iff hcounted hcoherent hcombine.counted hadj, hgraph]
    cases hq : A.needQueryCompute with
    | true =>
      refine iff_of_true ?_ (.inl rfl)
      rw [← hgraph, ← hadj]
      exact (kruskal_spec (g := A.combine B) hq).1
    | false =>
      rw [kruskal_of_valid (g := A.combine B) hq, or_iff_right Bool.false_ne_true]
      rfl
  rw [← hsets, ← verdicts_eq_iff hcounted hcombine.counted]
  constructor
  · intro h ls ls' hls
    exact (h ls ls' hls).1
  · intro h ls ls' hls
    exact ⟨h ls ls' hls, fun copied => verdicts_twin (hcopy copied) hls⟩

/-- the verifier of one edge between two vertices, and a verifier that has verified an answer for none -/
def seenEdge : GraphVerifier 2 := ((new (fun _ => 7) 0).call ⟨fun _ _ => 7, .edgeUpdate 0 1⟩).1

def verifiedEmpty : GraphVerifier 2 := ((new (fun _ => 7) 0).call ⟨fun _ _ => 7, .verifyConnectedComponents oneComponent⟩).1

theorem combine_verdicts_iff_twice :
    (seenEdge.combine seenEdge).verdicts [⟨fun _ _ => 8, .verifyConnectedComponents oneComponent⟩] =
      ((new (fun _ => 7) 0).afterUpdates [(Threads.fst, Threads.snd), (Threads.fst, Threads.snd)]).verdicts
        [⟨fun _ _ => 9, .verifyConnectedComponents oneComponent⟩] := by
  have hseen : Seen seenEdge [(Threads.fst, Threads.snd)] := (Seen.new (fun _ => 7) 0).call ⟨fun _ _ => 7, .edgeUpdate 0 1⟩
  exact ((combine_verdicts_iff hseen hseen (fun _ => 7) 0).2 (.inl rfl) _ _ rfl).1

/-- **The cache of the one stream.** A verifier that has verified an answer before it is combined refuses the right
components of the combined graph. -/
theorem stale_after_combine :
    Seen verifiedEmpty [] ∧ Seen seenEdge [(Threads.fst, Threads.snd)] ∧
    ((verifiedEmpty.combine seenEdge).verifyConnectedComponents oneComponent).2 =
      .error (.incorrectCC "Incorrect number of components!") ∧
    (((new (fun _ => 7) 0).afterUpdates [(Threads.fst, Threads.snd)]).verifyConnectedComponents oneComponent).2 = .ok () := by
  refine ⟨(Seen.new (fun _ => 7) 0).call ⟨fun _ _ => 7, .verifyConnectedComponents oneComponent⟩,
    (Seen.new (fun _ => 7) 0).call ⟨fun _ _ => 7, .edgeUpdate 0 1⟩, ?_⟩
  decide +kernel

end GraphStreamingCC.GraphVerifier
