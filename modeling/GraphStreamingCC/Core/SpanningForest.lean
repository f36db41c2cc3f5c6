/-
Spanning forests of graphs, and the forest a union-find structure leaves behind; independent of any program.

- `IsSpanningForest F G`: F is a subgraph of G without cycles that connects what G connects.
- `pairGraph l`: the graph of a list of pairs; `setGraph f`: the graph of a family of neighbour sets.
- `Spans p F`: the graph F has no cycle, connects exactly what the parent forest `p` puts into one set, and has one edge
  for every root that is missing. `Spans.link`: a link together with its edge keeps this; `Spans.quiet`: so does a
  halving write. `card_roots_eq_components`: the roots of `p` are as many as the components.
-/
import Mathlib.Tactic
import Mathlib.Combinatorics.SimpleGraph.Acyclic
import Mathlib.Combinatorics.SimpleGraph.Connectivity.Finite
import GraphStreamingCC.Core.ParentForest

namespace GraphStreamingCC.SpanningForest

open ParentForest

variable {V : Type*}

/-- F is a spanning forest of G -/
structure IsSpanningForest (F G : SimpleGraph V) : Prop where
  le : F ≤ G
  acyclic : F.IsAcyclic
  spans : ∀ u v, G.Reachable u v → F.Reachable u v

theorem IsSpanningForest.reachable_iff {F G : SimpleGraph V} (h : IsSpanningForest F G) (u v : V) :
    F.Reachable u v ↔ G.Reachable u v :=
  ⟨fun hr => hr.mono h.le, h.spans u v⟩

/-! ## Graphs of pairs -/

/-- the graph of a list of pairs; a pair of equal items is no edge -/
def pairGraph (l : List (V × V)) : SimpleGraph V := SimpleGraph.fromRel fun u v => (u, v) ∈ l

/-- the graph of the pairs (u, v) with v ∈ f u -/
def setGraph (f : V → Finset V) : SimpleGraph V := SimpleGraph.fromRel fun u v => v ∈ f u

theorem pairGraph_adj {l : List (V × V)} {x y : V} :
    (pairGraph l).Adj x y ↔ x ≠ y ∧ ((x, y) ∈ l ∨ (y, x) ∈ l) := SimpleGraph.fromRel_adj _ x y

theorem setGraph_adj {f : V → Finset V} {x y : V} :
    (setGraph f).Adj x y ↔ x ≠ y ∧ (y ∈ f x ∨ x ∈ f y) := SimpleGraph.fromRel_adj _ x y

@[simp] theorem pairGraph_nil : pairGraph ([] : List (V × V)) = ⊥ := by
  ext x y; simp [pairGraph_adj]

theorem pairGraph_cons (u v : V) (l : List (V × V)) :
    pairGraph ((u, v) :: l) = pairGraph l ⊔ SimpleGraph.edge u v := by
  ext x y
  simp only [pairGraph_adj, SimpleGraph.sup_adj, SimpleGraph.edge_adj, List.mem_cons, Prod.mk.injEq]
  tauto

/-- an edge joins the components of its ends and no others -/
theorem reachable_sup_edge {G : SimpleGraph V} {u v x y : V} :
    (G ⊔ SimpleGraph.edge u v).Reachable x y ↔
      G.Reachable x y ∨ (G.Reachable x u ∧ G.Reachable y v) ∨ (G.Reachable x v ∧ G.Reachable y u) := by
  have hle : G ≤ G ⊔ SimpleGraph.edge u v := le_sup_left
  have huv : (G ⊔ SimpleGraph.edge u v).Reachable u v := by
    by_cases h : u = v
    · subst h; rfl
    · exact SimpleGraph.Adj.reachable (Or.inr ((SimpleGraph.edge_adj ..).2 ⟨Or.inl ⟨rfl, rfl⟩, h⟩))
  constructor
  · rintro ⟨w⟩
    induction w with
    | nil => exact Or.inl (SimpleGraph.Reachable.refl _)
    | @cons a b c hab _ ih =>
      rcases hab with hab | hab
      · have := hab.reachable
        rcases ih with h | ⟨h1, h2⟩ | ⟨h1, h2⟩
        · exact Or.inl (this.trans h)
        · exact Or.inr (Or.inl ⟨this.trans h1, h2⟩)
        · exact Or.inr (Or.inr ⟨this.trans h1, h2⟩)
      · obtain ⟨⟨rfl, rfl⟩ | ⟨rfl, rfl⟩, -⟩ := (SimpleGraph.edge_adj ..).1 hab
        · rcases ih with h | ⟨h1, h2⟩ | ⟨h1, h2⟩
          · exact Or.inr (Or.inl ⟨SimpleGraph.Reachable.refl _, h.symm⟩)
          · exact Or.inl (h1.symm.trans h2.symm)
          · exact Or.inl h2.symm
        · rcases ih with h | ⟨h1, h2⟩ | ⟨h1, h2⟩
          · exact Or.inr (Or.inr ⟨SimpleGraph.Reachable.refl _, h.symm⟩)
          · exact Or.inl h2.symm
          · exact Or.inl (h1.symm.trans h2.symm)
  · rintro (h | ⟨h1, h2⟩ | ⟨h1, h2⟩)
    · exact h.mono hle
    · exact (h1.mono hle).trans (huv.trans (h2.mono hle).symm)
    · exact (h1.mono hle).trans (huv.symm.trans (h2.mono hle).symm)

/-- what connects the ends of every edge connects what the graph connects -/
theorem reachable_of_adj {F G : SimpleGraph V} (h : ∀ x y, G.Adj x y → F.Reachable x y) {u v : V}
    (hr : G.Reachable u v) : F.Reachable u v := by
  obtain ⟨w⟩ := hr
  induction w with
  | nil => rfl
  | cons hab _ ih => exact (h _ _ hab).trans ih

/-! ## The forest behind a union-find structure -/

variable [Fintype V] {β : Type*} [LinearOrder β] {rank : V → β} {p p' : V → V} {F : SimpleGraph V}

/-- F has no cycle, connects exactly the sets of `p`, and has as many edges as `p` has non-roots -/
structure Spans [DecidableEq V] (p : V → V) (F : SimpleGraph V) : Prop where
  acyclic : F.IsAcyclic
  reach : ∀ x y, F.Reachable x y ↔ Same p x y
  count : F.edgeSet.ncard + (Finset.univ.filter fun w => p w = w).card = Fintype.card V

variable [DecidableEq V]

theorem spans_init : Spans (id : V → V) ⊥ where
  acyclic := SimpleGraph.isAcyclic_bot
  reach x y := by
    rw [SimpleGraph.reachable_bot, Same, root_of_fixed rfl, root_of_fixed rfl]
  count := by simp

theorem Spans.quiet (h : Spans p F) (ho : Ordered rank p) (hq : Quiet rank p p') : Spans p' F where
  acyclic := h.acyclic
  reach x y := by rw [h.reach, hq.same_iff ho]
  count := by rw [hq.card_roots ho]; exact h.count

theorem Spans.link (h : Spans p F) (ho : Ordered rank p) {u v : V} (hl : Links rank p p' u v) :
    Spans p' (F ⊔ SimpleGraph.edge u v) := by
  have hnr : ¬ F.Reachable u v := fun hr => hl.not_same ho ((h.reach u v).1 hr)
  have hne : u ≠ v := fun he => hnr (he ▸ SimpleGraph.Reachable.refl _)
  refine ⟨h.acyclic.sup_edge_of_not_reachable hnr, fun x y => ?_, ?_⟩
  · rw [reachable_sup_edge, hl.same_iff ho, h.reach, h.reach, h.reach, h.reach, h.reach]
  · have hedges : (F ⊔ SimpleGraph.edge u v).edgeSet = insert s(u, v) F.edgeSet := by
      rw [SimpleGraph.edgeSet_sup, SimpleGraph.edgeSet_edge_of_ne hne, Set.union_comm, Set.singleton_union]
    have hnew : s(u, v) ∉ F.edgeSet := fun hm => hnr (SimpleGraph.Adj.reachable hm)
    rw [hedges, Set.ncard_insert_of_notMem hnew (Set.toFinite _)]
    have := h.count
    have := hl.card_roots
    omega

/-- the parents do not matter, only the roots -/
theorem Spans.of_root_eq (h : Spans p F) (ho : Ordered rank p) (ho' : Ordered rank p') (hroot : ∀ v, root p' v = root p v) :
    Spans p' F where
  acyclic := h.acyclic
  reach x y := by rw [h.reach, Same, Same, hroot, hroot]
  count := by
    have hfixed : ∀ {q : V → V}, Ordered rank q → ∀ v, q v = v ↔ root q v = v := by
      intro q hq v
      refine ⟨root_of_fixed, fun hv => ?_⟩
      have := hq.root_fixed v
      rwa [hv] at this
    have hroots : ∀ v, p' v = v ↔ p v = v := fun v => by rw [hfixed ho', hfixed ho, hroot]
    simp only [hroots]
    exact h.count

/-- there are as many roots as components, in any graph that connects exactly the sets of `p` -/
theorem card_roots_eq_components (ho : Ordered rank p) {G : SimpleGraph V}
    (hG : ∀ x y, G.Reachable x y ↔ Same p x y) :
    (Finset.univ.filter fun w => p w = w).card = Nat.card G.ConnectedComponent := by
  rw [← Fintype.card_subtype, ← Nat.card_eq_fintype_card]
  refine Nat.card_congr (Equiv.ofBijective (fun r => G.connectedComponentMk r.val) ⟨fun r r' he => ?_, fun c => ?_⟩)
  · have hs := (hG _ _).1 (SimpleGraph.ConnectedComponent.eq.1 he)
    rw [Same, root_of_fixed r.2, root_of_fixed r'.2] at hs
    exact Subtype.ext hs
  · obtain ⟨w, rfl⟩ := c.exists_rep
    exact ⟨⟨root p w, ho.root_fixed w⟩, SimpleGraph.ConnectedComponent.eq.2 ((hG _ _).2 (ho.same_root w))⟩

/-- **Names that show the components.** If every vertex has a name in its set, only roots are their own names, equal names
are components of G, and as many vertices are their own names as there are components, then the sets are the components. -/
theorem same_iff_of_named {arr : V → V} {G : SimpleGraph V} (hnames : ∀ a b, arr a = arr b ↔ G.Reachable a b)
    (hcount : (Finset.univ.filter fun v => arr v = v).card = Nat.card G.ConnectedComponent) (hsame : ∀ v, Same p (arr v) v)
    (hroots : ∀ v, arr v = v → p v = v) (u v : V) : Same p u v ↔ G.Reachable u v := by
  have hcomponents : ∀ a b, G.Reachable a b → Same p a b := by
    intro a b hab
    have ha := hsame a
    rw [(hnames a b).2 hab] at ha
    exact ha.symm.trans (hsame b)
  -- every component has a vertex that is its own name
  have hbijective : Function.Bijective fun r : {v : V // arr v = v} => G.connectedComponentMk r.val := by
    apply Function.Injective.bijective_of_nat_card_le
    · intro r r' he
      have harr := (hnames _ _).2 (SimpleGraph.ConnectedComponent.eq.1 he)
      rw [r.2, r'.2] at harr
      exact Subtype.ext harr
    · rw [← hcount, ← Fintype.card_subtype, ← Nat.card_eq_fintype_card]
  have hown : ∀ w, ∃ r, arr r = r ∧ G.Reachable r w := by
    intro w
    obtain ⟨r, hr⟩ := hbijective.2 (G.connectedComponentMk w)
    exact ⟨r.val, r.2, SimpleGraph.ConnectedComponent.eq.1 hr⟩
  refine ⟨fun huv => ?_, hcomponents u v⟩
  obtain ⟨r, hr, hru⟩ := hown u
  obtain ⟨r', hr', hrv⟩ := hown v
  have hrr : Same p r r' := (hcomponents r u hru).trans (huv.trans (hcomponents r' v hrv).symm)
  rw [Same, root_of_fixed (hroots r hr), root_of_fixed (hroots r' hr')] at hrr
  exact hru.symm.trans (hrr ▸ hrv)

omit [DecidableEq V] in
/-- pairs in one direction are as many as edges -/
theorem ncard_setGraph [LinearOrder V] {f : V → Finset V} (h : ∀ u, ∀ v ∈ f u, u < v) :
    (setGraph f).edgeSet.ncard = ∑ v, (f v).card := by
  have hset : (setGraph f).edgeSet = (fun x : (_ : V) × V => s(x.1, x.2)) '' (Finset.univ.sigma f : Finset ((_ : V) × V)) := by
    ext e
    induction e with
    | h x y =>
      rw [SimpleGraph.mem_edgeSet, setGraph_adj]
      constructor
      · intro hxy
        obtain ⟨-, hy | hx⟩ := hxy
        · exact ⟨⟨x, y⟩, Finset.mem_coe.2 (Finset.mem_sigma.2 ⟨Finset.mem_univ x, hy⟩), rfl⟩
        · exact ⟨⟨y, x⟩, Finset.mem_coe.2 (Finset.mem_sigma.2 ⟨Finset.mem_univ y, hx⟩), Sym2.eq_swap⟩
      · intro hm
        obtain ⟨⟨a, b⟩, hab, he⟩ := hm
        have hb := (Finset.mem_sigma.1 (Finset.mem_coe.1 hab)).2
        rcases Sym2.eq_iff.1 he with ⟨rfl, rfl⟩ | ⟨rfl, rfl⟩
        · exact ⟨(h _ _ hb).ne, .inl hb⟩
        · exact ⟨(h _ _ hb).ne', .inr hb⟩
  have hinj : Set.InjOn (fun x : (_ : V) × V => s(x.1, x.2)) (Finset.univ.sigma f : Finset ((_ : V) × V)) := by
    intro x hx y hy he
    have hlt := h _ _ (Finset.mem_sigma.1 hx).2
    have hlt' := h _ _ (Finset.mem_sigma.1 hy).2
    rcases Sym2.eq_iff.1 he with ⟨h1, h2⟩ | ⟨h1, h2⟩
    · exact Sigma.ext h1 (heq_of_eq h2)
    · rw [h1, h2] at hlt
      exact absurd hlt hlt'.not_gt
  rw [hset, hinj.ncard_image, Set.ncard_coe_finset, Finset.card_sigma]

end GraphStreamingCC.SpanningForest
