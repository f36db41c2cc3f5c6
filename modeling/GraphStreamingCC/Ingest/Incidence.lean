/-
The sketch of a vertex holds the edges at it.

After a stream of updates, what the directed copies have put into the sketch of vertex v is the sum of the contributions
of its neighbours in the graph of the edges updated an odd number of times (`pairSum_copies`): the copies of one edge
cancel in pairs, and both copies of a loop go to the same vertex. In the sum over a set of vertices the edges inside
cancel too, and the edges that leave the set are left (`sum_graphSketch`).
-/
import GraphStreamingCC.Core.Parity
import GraphStreamingCC.Ingest.Batches
import GraphStreamingCC.Sketch.Encode

namespace GraphStreamingCC.Ingest

open Parity

variable {P : Params} {n : ℕ}

instance (l : List (Fin n × Fin n)) : DecidableRel (oddGraph l).Adj := fun _ _ => decidable_of_iff _ oddGraph_adj.symm

/-- the other ends of the directed copies from v, in stream order -/
def partners (v : Fin n) (pairs : List (Fin n × Fin n)) : List (Fin n) :=
  pairs.filterMap fun e => if e.1 = v then some e.2 else none

theorem partners_cons (v : Fin n) (e : Fin n × Fin n) (pairs : List (Fin n × Fin n)) :
    partners v (e :: pairs) = if e.1 = v then e.2 :: partners v pairs else partners v pairs := by
  by_cases he : e.1 = v <;> simp [partners, he]

theorem pairSum_eq_partners (v : Fin n) (pairs : List (Fin n × Fin n)) :
    pairSum P v pairs = ((partners v pairs).map fun w => Sketch.contrib P (edgeIdx v w)).sum := by
  induction pairs with
  | nil => rfl
  | cons e pairs ih =>
    rw [pairSum, List.map_cons, List.sum_cons, ← pairSum, ih, partners_cons, atVertex]
    by_cases he : e.1 = v
    · rw [if_pos he, if_pos he, List.map_cons, List.sum_cons, he]
    · rw [if_neg he, if_neg he, zero_add]

/-- the two copies of an update, seen from v -/
theorem partners_copy (v : Fin n) (e : Fin n × Fin n) (w : Fin n) (hw : w ≠ v) :
    (partners v [(e.1, e.2), (e.2, e.1)]).count w = if pairEdge e = s(v, w) then 1 else 0 := by
  obtain ⟨x, y⟩ := e
  simp only [partners, pairEdge, List.filterMap_cons, List.filterMap_nil, Sym2.eq_iff]
  by_cases hx : x = v
  · subst hx
    by_cases hy : y = x
    · subst hy
      simp [Ne.symm hw]
    · simp [hy, List.count_cons, hw.symm]
  · by_cases hy : y = v
    · subst hy
      simp [hx, List.count_cons]
    · simp [hx, hy]

theorem partners_loop (v : Fin n) (e : Fin n × Fin n) : Even ((partners v [(e.1, e.2), (e.2, e.1)]).count v) := by
  obtain ⟨x, y⟩ := e
  simp only [partners, List.filterMap_cons, List.filterMap_nil]
  by_cases hx : x = v <;> by_cases hy : y = v <;> simp [hx, hy]

theorem partners_copies_cons (v : Fin n) (e : Fin n × Fin n) (stream : List (Fin n × Fin n)) :
    partners v (copies (e :: stream)) = partners v [(e.1, e.2), (e.2, e.1)] ++ partners v (copies stream) := by
  rw [copies, List.flatMap_cons, partners, List.filterMap_append]
  rfl

/-- the partners of odd multiplicity are the neighbours -/
theorem mem_oddSet_partners (v w : Fin n) (stream : List (Fin n × Fin n)) :
    w ∈ oddSet (partners v (copies stream)) ↔ (oddGraph stream).Adj v w := by
  rw [mem_oddSet, oddGraph_adj, oddEdges, mem_oddSet]
  by_cases hw : w = v
  · subst hw
    have heven : Even ((partners w (copies stream)).count w) := by
      induction stream with
      | nil => exact ⟨0, rfl⟩
      | cons e stream ih =>
        rw [partners_copies_cons, List.count_append]
        exact (partners_loop w e).add ih
    simp [heven]
  · have hcount : (partners v (copies stream)).count w = (stream.map pairEdge).count s(v, w) := by
      induction stream with
      | nil => rfl
      | cons e stream ih =>
        rw [partners_copies_cons, List.count_append, partners_copy v e w hw, ih, List.map_cons, List.count_cons,
          add_comm]
        simp only [beq_iff_eq]
    rw [hcount]
    exact (and_iff_left (Ne.symm hw)).symm

/-- the buckets of the sketch of vertex v for the graph G -/
def graphSketch (P : Params) (G : SimpleGraph (Fin n)) [DecidableRel G.Adj] (v : Fin n) : Content P :=
  ∑ w with G.Adj v w, Sketch.contrib P (edgeIdx v w)

/-- **A stream leaves the sketch of its graph**, at every vertex. -/
theorem pairSum_copies (v : Fin n) (stream : List (Fin n × Fin n)) :
    pairSum P v (copies stream) = graphSketch P (oddGraph stream) v := by
  have hset : oddSet (partners v (copies stream)) = Finset.univ.filter fun w => (oddGraph stream).Adj v w := by
    ext w
    rw [mem_oddSet_partners, Finset.mem_filter]
    exact (and_iff_right (Finset.mem_univ w)).symm
  rw [pairSum_eq_partners, sum_map_eq_sum_oddSet fun x : Content P => funext fun b => Bucket.add_self (x b), hset,
    graphSketch]

/-- the order of the copies does not matter -/
theorem pairSum_congr (v : Fin n) {l l' : List (Fin n × Fin n)} (h : l.Perm l') : pairSum P v l = pairSum P v l' :=
  (h.map _).sum_eq

theorem pairSum_append (v : Fin n) (l l' : List (Fin n × Fin n)) :
    pairSum P v (l ++ l') = pairSum P v l + pairSum P v l' := by
  rw [pairSum, List.map_append, List.sum_append, ← pairSum, ← pairSum]

/-! ## Cuts -/

/-- the indices of the edges that leave B -/
def cutIds (G : SimpleGraph (Fin n)) [DecidableRel G.Adj] (B : Finset (Fin n)) : Finset (BitVec 64) :=
  ((B ×ˢ Bᶜ).filter fun e => G.Adj e.1 e.2).image fun e => edgeIdx e.1 e.2

variable {G : SimpleGraph (Fin n)} [DecidableRel G.Adj] {B : Finset (Fin n)}

theorem mem_cutIds {x : BitVec 64} : x ∈ cutIds G B ↔ ∃ u ∈ B, ∃ w, w ∉ B ∧ G.Adj u w ∧ edgeIdx u w = x := by
  simp only [cutIds, Finset.mem_image, Finset.mem_filter, Finset.mem_product, Finset.mem_compl, Prod.exists]
  constructor
  · intro h
    obtain ⟨u, w, ⟨⟨hu, hw⟩, hadj⟩, hx⟩ := h
    exact ⟨u, hu, w, hw, hadj, hx⟩
  · intro h
    obtain ⟨u, hu, w, hw, hadj, hx⟩ := h
    exact ⟨u, w, ⟨⟨hu, hw⟩, hadj⟩, hx⟩

/-- an edge inside of B is counted at both of its ends -/
theorem sum_inside (f : Fin n × Fin n → Content P) (hf : ∀ e, f e.swap = f e) :
    ∑ e ∈ B ×ˢ B with G.Adj e.1 e.2, f e = 0 := by
  refine Finset.sum_involution (fun e _ => e.swap) (fun e _ => ?_) (fun e he _ heq => ?_) (fun e he => ?_) fun e _ => e.swap_swap
  · rw [hf]
    exact funext fun b => Bucket.add_self (f e b)
  · have hadj := (Finset.mem_filter.1 he).2
    exact hadj.ne (congrArg Prod.snd heq)
  · obtain ⟨hmem, hadj⟩ := Finset.mem_filter.1 he
    exact Finset.mem_filter.2 ⟨Finset.mk_mem_product (Finset.mem_product.1 hmem).2 (Finset.mem_product.1 hmem).1, hadj.symm⟩

/-- **The sketches of a set of vertices add up to the sketch of its cut.** -/
theorem sum_graphSketch (hn : n ≤ 2 ^ 32) (G : SimpleGraph (Fin n)) [DecidableRel G.Adj] (B : Finset (Fin n)) :
    ∑ u ∈ B, graphSketch P G u = Sketch.encode P (cutIds G B) := by
  have hsplit : ∑ u ∈ B, graphSketch P G u = ∑ e ∈ B ×ˢ B with G.Adj e.1 e.2, Sketch.contrib P (edgeIdx e.1 e.2) +
      ∑ e ∈ B ×ˢ Bᶜ with G.Adj e.1 e.2, Sketch.contrib P (edgeIdx e.1 e.2) := by
    rw [Finset.sum_filter, Finset.sum_filter, Finset.sum_product, Finset.sum_product, ← Finset.sum_add_distrib]
    refine Finset.sum_congr rfl fun u _ => ?_
    rw [graphSketch, Finset.sum_filter, Finset.sum_add_sum_compl]
  have hinj : Set.InjOn (fun e : Fin n × Fin n => edgeIdx e.1 e.2) ((B ×ˢ Bᶜ).filter fun e => G.Adj e.1 e.2) := by
    intro e he e' he' hee
    have hB := (Finset.mem_product.1 (Finset.mem_filter.1 he).1).1
    have hB' := (Finset.mem_product.1 (Finset.mem_filter.1 he').1).2
    rcases Sym2.eq_iff.1 ((edgeIdx_eq_iff hn).1 hee) with h | h
    · exact Prod.ext h.1 h.2
    · -- the other way round, one end would be inside and outside
      exact absurd (h.1 ▸ hB) (Finset.mem_compl.1 hB')
  rw [hsplit, sum_inside (fun e => Sketch.contrib P (edgeIdx e.1 e.2))
    fun e => by rw [Prod.fst_swap, Prod.snd_swap, edgeIdx_comm],
    zero_add, Sketch.encode, cutIds, Finset.sum_image hinj]

end GraphStreamingCC.Ingest
