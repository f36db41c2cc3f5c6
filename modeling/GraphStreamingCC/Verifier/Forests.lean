/-
What `verify_spanning_forests` accepts.

- `takeForest_cons`: one edge of a forest. `takeForest_spec`: the loop over the edges takes a forest completely if and
  only if it is one of edges of the graph, and removes it from the matrix.
- `compareRoots_snd`: the loop over the vertices tests one direction of the equality of two partitions.
- `forest_step`: one forest. `verifyForests_iff`: all of them.
- `verify_spanning_forests_iff`: a verifier that has seen updates accepts exactly the disjoint maximal forests.
-/
import GraphStreamingCC.Core.Augment
import GraphStreamingCC.Verifier.Kruskal

namespace GraphStreamingCC

open ParentForest SpanningForest Parity DisjointSetUnion

variable {n : ℕ} {g : GraphVerifier n} {d f : DisjointSetUnion n} {G H : SimpleGraph (Fin n)}

namespace GraphVerifier

@[simp] theorem edgeUpdate_fin (g : GraphVerifier n) (e : Fin n × Fin n) :
    g.edgeUpdate e.1 e.2 = ({ g with adjMatrix := toggle g.adjMatrix e, needQueryCompute := true }, .ok ()) := by
  rw [edgeUpdate, dif_neg (by omega)]

/-! ## The edges of a forest -/

/-- an edge that joins nothing -/
theorem takeForest_redundant {e : Fin n × Fin n} (h : Same d.parent e.1 e.2) (es : SpanningForest n) :
    takeForest g d (e :: es) = (g, .error (.incorrectForest (redundant e))) := by
  have hno : (d.merge e.1 e.2).2.merged = false := by
    rw [← Bool.not_eq_true, d.merged_iff]
    exact not_not.2 h
  rw [takeForest, hno]
  rfl

/-- an edge that is not there -/
theorem takeForest_absent {e : Fin n × Fin n} (h : ¬ Same d.parent e.1 e.2) (hadj : g.adjMatrix (cellOf e) = false)
    (es : SpanningForest n) :
    takeForest g d (e :: es) = (g, .error (.badEdge "The edge is not in the cut of the sample!")) := by
  simp only [takeForest, (d.merged_iff e.1 e.2).2 h, verifyEdge, hadj]
  rfl

/-- an edge that is taken -/
theorem takeForest_taken {e : Fin n × Fin n} (h : ¬ Same d.parent e.1 e.2) (hadj : g.adjMatrix (cellOf e) = true)
    (es : SpanningForest n) :
    takeForest g d (e :: es) = takeForest { g with adjMatrix := toggle g.adjMatrix e, needQueryCompute := true }
      (d.merge e.1 e.2).1 es := by
  simp only [takeForest, (d.merged_iff e.1 e.2).2 h, verifyEdge, hadj, edgeUpdate_fin]
  rfl

/-- one edge: it joins nothing, it is not there, or it is taken -/
theorem takeForest_cons (g : GraphVerifier n) (d : DisjointSetUnion n) (e : Fin n × Fin n) (es : SpanningForest n) :
    (Same d.parent e.1 e.2 ∨ ¬ Same d.parent e.1 e.2 ∧ g.adjMatrix (cellOf e) = false) ∧
      (∃ x, takeForest g d (e :: es) = (g, .error x)) ∨
    ¬ Same d.parent e.1 e.2 ∧ g.adjMatrix (cellOf e) = true ∧
      takeForest g d (e :: es) = takeForest { g with adjMatrix := toggle g.adjMatrix e, needQueryCompute := true }
        (d.merge e.1 e.2).1 es := by
  by_cases hsame : Same d.parent e.1 e.2
  · exact .inl ⟨.inl hsame, _, takeForest_redundant hsame es⟩
  · cases hadj : g.adjMatrix (cellOf e) with
    | false => exact .inl ⟨.inr ⟨hsame, rfl⟩, _, takeForest_absent hsame hadj es⟩
    | true => exact .inr ⟨hsame, rfl, takeForest_taken hsame hadj es⟩

theorem takeForest_cached (g : GraphVerifier n) (d : DisjointSetUnion n) (es : SpanningForest n) :
    (takeForest g d es).1.kruskalDsu = g.kruskalDsu ∧ (takeForest g d es).1.kruskalCcs = g.kruskalCcs ∧
      (g.needQueryCompute = true → (takeForest g d es).1.needQueryCompute = true) := by
  induction es generalizing g d with
  | nil => exact ⟨rfl, rfl, id⟩
  | cons e es ih =>
    rcases takeForest_cons g d e es with ⟨-, x, he⟩ | ⟨-, -, he⟩ <;> rw [he]
    · exact ⟨rfl, rfl, id⟩
    · obtain ⟨h1, h2, h3⟩ := ih { g with adjMatrix := toggle g.adjMatrix e, needQueryCompute := true } (d.merge e.1 e.2).1
      exact ⟨h1, h2, fun _ => h3 rfl⟩

/-- entries of different vertices are edges -/
theorem adj_of_not_reachable {e : Fin n × Fin n} (h : ¬ H.Reachable e.1 e.2) :
    (graph g.adjMatrix).Adj e.1 e.2 ↔ g.adjMatrix (cellOf e) = true := by
  rw [graph_adj, and_iff_right]
  intro he
  rw [he] at h
  exact h (SimpleGraph.Reachable.refl _)

/-- **The loop over the edges.** -/
theorem takeForest_spec (hd : d.Components H) (es : SpanningForest n) :
    (∃ x, (takeForest g d es).2 = .error x) ∧ ¬ Augments H (graph g.adjMatrix) es ∨
    ∃ f, (takeForest g d es).2 = .ok f ∧ Augments H (graph g.adjMatrix) es ∧ f.Components (H ⊔ pairGraph es) ∧
      graph (takeForest g d es).1.adjMatrix = graph g.adjMatrix \ pairGraph es := by
  induction es generalizing g d H with
  | nil => exact .inr ⟨d, rfl, trivial, by rwa [pairGraph_nil, sup_bot_eq], by rw [pairGraph_nil, sdiff_bot]; rfl⟩
  | cons e es ih =>
    rcases takeForest_cons g d e es with ⟨hno, x, he⟩ | ⟨hsame, hadj, he⟩ <;> rw [he]
    · refine .inl ⟨⟨x, rfl⟩, fun haug => ?_⟩
      rcases hno with hsame | ⟨-, hadj⟩
      · exact haug.1 ((hd _ _).1 hsame)
      · have := (adj_of_not_reachable haug.1).1 haug.2.1
        rw [hadj] at this
        cases this
    · have hnr := fun hr => hsame ((hd _ _).2 hr)
      have hstep := ih (g := { g with adjMatrix := toggle g.adjMatrix e, needQueryCompute := true }) (hd.merge e.1 e.2)
      have haug : Augments H (graph g.adjMatrix) (e :: es) ↔
          Augments (H ⊔ SimpleGraph.edge e.1 e.2) (graph (toggle g.adjMatrix e)) es := by
        rw [Augments, and_iff_right hnr, and_iff_right ((adj_of_not_reachable hnr).2 hadj), graph_toggle hadj]
      rw [haug]
      refine hstep.imp_right fun h => ?_
      obtain ⟨f, hf, ha, hsets, hgraph⟩ := h
      refine ⟨f, hf, ha, ?_, ?_⟩
      · rwa [pairGraph_cons_eq, sup_comm (pairGraph es), ← sup_assoc]
      · rw [hgraph, graph_toggle hadj, pairGraph_cons_eq, sup_comm, sdiff_sdiff]

/-- the first edge of the forest is removed -/
def Touches (G : SimpleGraph (Fin n)) (es : SpanningForest n) : Prop := ∃ e ∈ es.head?, G.Adj e.1 e.2

/-- the flag tells whether an edge has been removed -/
theorem takeForest_flag (hd : d.Components ⊥) (es : SpanningForest n) :
    (takeForest g d es).1.needQueryCompute = true ↔ g.needQueryCompute = true ∨ Touches (graph g.adjMatrix) es := by
  cases es with
  | nil =>
    refine (or_iff_left fun h => ?_).symm
    obtain ⟨e, he, -⟩ := h
    cases he
  | cons e es =>
    have htouches : Touches (graph g.adjMatrix) (e :: es) ↔ (graph g.adjMatrix).Adj e.1 e.2 := by
      simp only [Touches, List.head?_cons, Option.mem_some_iff, exists_eq_left']
    rw [htouches]
    rcases takeForest_cons g d e es with ⟨hno, x, he⟩ | ⟨hsame, hadj, he⟩ <;> rw [he]
    · refine (or_iff_left fun h => ?_).symm
      rcases hno with hsame | ⟨-, hadj⟩
      · exact h.ne (SimpleGraph.reachable_bot.1 ((hd _ _).1 hsame))
      · have := (graph_adj.1 h).2
        rw [hadj] at this
        cases this
    · refine iff_of_true ((takeForest_cached _ _ es).2.2 rfl) (.inr ?_)
      exact (adj_of_not_reachable fun hr => hsame ((hd _ _).2 hr)).2 hadj

/-! ## The partitions -/

theorem compareRoots_fst (rootMap : Fin n → Option (Fin n)) (d f : DisjointSetUnion n) (is : List (Fin n)) (x : Fin n) :
    root (compareRoots rootMap d f is).1.parent x = root d.parent x := by
  induction is generalizing rootMap d f with
  | nil => rfl
  | cons i is ih =>
    simp only [compareRoots]
    split
    · rw [ih, findRoot_root]
    · split_ifs
      · exact findRoot_root d i x
      · rw [ih, findRoot_root]

/-- the items agree with the map, and with each other -/
def Translates (rootMap : Fin n → Option (Fin n)) (a b : Fin n → Fin n) (is : List (Fin n)) : Prop :=
  ∀ i ∈ is, (∀ x ∈ rootMap (a i), x = b i) ∧ ∀ j ∈ is, a i = a j → b i = b j

instance (rootMap : Fin n → Option (Fin n)) (a b : Fin n → Fin n) (is : List (Fin n)) : Decidable (Translates rootMap a b is) :=
  inferInstanceAs (Decidable (∀ i ∈ is, (∀ x ∈ rootMap (a i), x = b i) ∧ ∀ j ∈ is, a i = a j → b i = b j))

theorem translates_insert {rootMap : Fin n → Option (Fin n)} {a b : Fin n → Fin n} {i : Fin n} {is : List (Fin n)}
    (h : rootMap (a i) = none) :
    Translates (Function.update rootMap (a i) (some (b i))) a b is ↔ Translates rootMap a b (i :: is) := by
  have hmap : ∀ j, (∀ x ∈ Function.update rootMap (a i) (some (b i)) (a j), x = b j) ↔
      (a i = a j → b i = b j) ∧ ∀ x ∈ rootMap (a j), x = b j := by
    intro j
    by_cases hj : a j = a i
    · rw [hj, Function.update_self, h]
      simp
    · rw [Function.update_of_ne hj]
      simp [Ne.symm hj]
  simp only [Translates, hmap, List.forall_mem_cons, h]
  constructor
  · intro hall
    refine ⟨⟨fun x hx => (by cases hx), fun _ => trivial, fun j hj => (hall j hj).1.1⟩, fun j hj => ?_⟩
    exact ⟨(hall j hj).1.2, fun hij => ((hall j hj).1.1 hij.symm).symm, (hall j hj).2⟩
  · intro hall j hj
    exact ⟨⟨hall.1.2.2 j hj, (hall.2 j hj).1⟩, (hall.2 j hj).2.2⟩

theorem translates_found {rootMap : Fin n → Option (Fin n)} {a b : Fin n → Fin n} {i x : Fin n} {is : List (Fin n)}
    (h : rootMap (a i) = some x) : Translates rootMap a b (i :: is) ↔ x = b i ∧ Translates rootMap a b is := by
  simp only [Translates, List.forall_mem_cons, h]
  constructor
  · intro hall
    exact ⟨hall.1.1 x rfl, fun j hj => ⟨(hall.2 j hj).1, (hall.2 j hj).2.2⟩⟩
  · intro hall
    have hrow : ∀ j ∈ is, a i = a j → b i = b j := by
      intro j hj hij
      rw [← hall.1]
      exact (hall.2 j hj).1 x (hij ▸ h)
    refine ⟨⟨fun y hy => ?_, fun _ => trivial, hrow⟩,
      fun j hj => ⟨(hall.2 j hj).1, fun hij => (hrow j hj hij.symm).symm, (hall.2 j hj).2⟩⟩
    cases hy
    exact hall.1

/-- **The loop over the vertices.** -/
theorem compareRoots_snd (rootMap : Fin n → Option (Fin n)) (d f : DisjointSetUnion n) (is : List (Fin n)) :
    (compareRoots rootMap d f is).2 = if Translates rootMap (root d.parent) (root f.parent) is then .ok ()
      else .error (.incorrectForest "Forest does not match expected component sets!") := by
  induction is generalizing rootMap d f with
  | nil =>
    have hnil : Translates rootMap (root d.parent) (root f.parent) [] := fun i hi => absurd hi List.not_mem_nil
    rw [if_pos hnil]
    rfl
  | cons i is ih =>
    have hd : root (d.findRoot i).1.parent = root d.parent := funext fun x => findRoot_root d i x
    have hf : root (f.findRoot i).1.parent = root f.parent := funext fun x => findRoot_root f i x
    simp only [compareRoots, findRoot_snd]
    cases hmap : rootMap (root d.parent i) with
    | none =>
      simp only [ih, hd, hf]
      exact if_congr (translates_insert hmap) rfl rfl
    | some x =>
      simp only [translates_found hmap]
      by_cases hx : x = root f.parent i
      · rw [if_neg (not_not.2 hx), ih, hd, hf]
        exact if_congr (and_iff_right hx).symm rfl rfl
      · rw [if_pos hx, if_neg fun h => hx h.1]

/-- with an empty map, it tests that one partition refines the other -/
theorem translates_none {a b : Fin n → Fin n} :
    Translates (fun _ => none) a b (List.finRange n) ↔ ∀ i j, a i = a j → b i = b j := by
  constructor
  · intro h i j
    exact (h i (List.mem_finRange i)).2 j (List.mem_finRange j)
  · intro h i _
    exact ⟨fun x hx => (by cases hx), fun j _ => h i j⟩

/-! ## One forest -/

/-- the verifier between two forests: G is the graph before the last one, `forest` -/
structure Walked (G : SimpleGraph (Fin n)) (forest : SpanningForest n) (g : GraphVerifier n) : Prop where
  flag : g.needQueryCompute = true ↔ Touches G forest
  sets : g.kruskalDsu.Components G
  count : g.kruskalCcs = g.kruskalDsu.roots

/-- **One forest.** It is accepted if and only if it is a maximal forest of the graph, and then it is removed. -/
theorem forest_step (hcounted : g.Counted) (hcoherent : g.Coherent) (backup : Cell n → Bool) (priority : ℕ → Fin n → ℕ)
    (forest : SpanningForest n) (sfs : List (SpanningForest n)) :
    ¬ MaximalForest (graph g.adjMatrix) forest ∧ (∃ g' x, Walked (graph g.adjMatrix) forest g' ∧
      verifyForests backup priority g (forest :: sfs) = ({ g' with adjMatrix := backup }, .error x)) ∨
    MaximalForest (graph g.adjMatrix) forest ∧ (∃ g', Walked (graph g.adjMatrix) forest g' ∧
      graph g'.adjMatrix = graph g.adjMatrix \ pairGraph forest ∧
      verifyForests backup priority g (forest :: sfs) = verifyForests backup (fun k => priority (k + 1)) g' sfs) := by
  have hnew := components_new (priority 0)
  have hflag := takeForest_flag (g := g.kruskal) hnew forest
  have hspec := takeForest_spec (g := g.kruskal) hnew forest
  obtain ⟨hdsu, hccs, -⟩ := takeForest_cached g.kruskal (.ofPriority (priority 0)) forest
  rw [kruskal_needQueryCompute, kruskal_adjMatrix, or_iff_right Bool.false_ne_true] at hflag
  rw [kruskal_adjMatrix] at hspec
  have hsets := hcoherent.kruskal
  have hcount := hcounted.kruskal
  rw [← hdsu] at hsets
  rw [← hdsu, ← hccs] at hcount
  rw [maximalForest_iff]
  rw [verifyForests]
  rcases htake : takeForest g.kruskal (.ofPriority (priority 0)) forest with ⟨g', x | f⟩ <;>
    rw [htake] at hflag hspec hsets hcount <;> simp only at hflag hsets hcount ⊢
  · rcases hspec with ⟨-, hno⟩ | ⟨f, hf, -⟩
    · exact .inl ⟨fun h => hno h.1, g', x, ⟨hflag, hsets, hcount⟩, rfl⟩
    · cases hf
  · rcases hspec with ⟨⟨x, hx⟩, -⟩ | ⟨f', hf', haug, hforest, hgraph⟩
    · cases hx
    cases hf'
    rw [bot_sup_eq] at hforest
    have hverdict := compareRoots_snd (fun _ => none) g'.kruskalDsu f (List.finRange n)
    have hroot := compareRoots_fst (fun _ => none) g'.kruskalDsu f (List.finRange n)
    have hcompare : Translates (fun _ => none) (root g'.kruskalDsu.parent) (root f.parent) (List.finRange n) ↔
        ∀ u v, (graph g.adjMatrix).Reachable u v → (pairGraph forest).Reachable u v := by
      rw [translates_none]
      refine forall_congr' fun u => forall_congr' fun v => ?_
      rw [← hsets u v, ← hforest u v]
      rfl
    rcases hcmp : compareRoots (fun _ => none) g'.kruskalDsu f (List.finRange n) with ⟨d, v⟩
    rw [hcmp] at hverdict hroot
    have hwalked : Walked (graph g.adjMatrix) forest { g' with kruskalDsu := d } :=
      ⟨hflag, hsets.congr hroot, hcount.trans (roots_congr hroot).symm⟩
    simp only at hverdict
    by_cases hspans : ∀ u v, (graph g.adjMatrix).Reachable u v → (pairGraph forest).Reachable u v
    · rw [if_pos (hcompare.2 hspans)] at hverdict
      subst hverdict
      exact .inr ⟨⟨haug, hspans⟩, _, hwalked, hgraph, rfl⟩
    · rw [if_neg (hcompare.not.2 hspans)] at hverdict
      subst hverdict
      exact .inl ⟨fun h => hspans h.2, _, _, hwalked, rfl⟩

/-- an accepted forest that touches nothing is empty -/
theorem nil_of_not_touches {forest : SpanningForest n} (h : MaximalForest G forest) (hno : ¬ Touches G forest) : forest = [] := by
  cases forest with
  | nil => rfl
  | cons e es => exact absurd ⟨e, rfl, h.sub e List.mem_cons_self⟩ hno

theorem Walked.counted {forest : SpanningForest n} (h : Walked G forest g) : g.Counted := fun _ => h.count

theorem Walked.coherent {forest : SpanningForest n} (h : Walked G forest g) (hmax : MaximalForest G forest)
    (hgraph : graph g.adjMatrix = G \ pairGraph forest) : g.Coherent := by
  intro hvalid
  have hno : ¬ Touches G forest := by
    rw [← h.flag, hvalid]
    exact Bool.false_ne_true
  rw [nil_of_not_touches hmax hno, pairGraph_nil, sdiff_bot] at hgraph
  rw [hgraph]
  exact h.sets

/-! ## All forests -/

/-- every exit restores the matrix -/
theorem verifyForests_adjMatrix (backup : Cell n → Bool) (priority : ℕ → Fin n → ℕ) (g : GraphVerifier n)
    (sfs : List (SpanningForest n)) : (verifyForests backup priority g sfs).1.adjMatrix = backup := by
  induction sfs generalizing g priority with
  | nil => rfl
  | cons forest sfs ih =>
    rw [verifyForests]
    split
    · rfl
    · split
      · rfl
      · exact ih _ _

theorem verifyForests_iff (hcounted : g.Counted) (hcoherent : g.Coherent) (backup : Cell n → Bool)
    (priority : ℕ → Fin n → ℕ) (sfs : List (SpanningForest n)) :
    (verifyForests backup priority g sfs).2 = .ok () ↔ Disjointly (graph g.adjMatrix) sfs sfs.length := by
  induction sfs generalizing g priority with
  | nil => exact iff_of_true rfl fun i hi => absurd hi (Nat.not_lt_zero i)
  | cons forest sfs ih =>
    rw [List.length_cons, disjointly_cons]
    rcases forest_step hcounted hcoherent backup priority forest sfs with ⟨hno, g', x, -, he⟩ | ⟨hmax, g', hw, hgraph, he⟩
    · rw [he]
      exact iff_of_false (fun h => by cases h) fun h => hno h.1
    · rw [he, and_iff_right hmax, ← hgraph]
      exact ih hw.counted (hw.coherent hmax hgraph) _

/-! ## Histories -/

/-- either constructor has returned the verifier; the file holds the edges l -/
def Constructed (g : GraphVerifier n) (l : List (Fin n × Fin n)) : Prop :=
  (∃ priority kruskalCcs, g = new priority kruskalCcs ∧ l = []) ∨ ∃ priority kruskalCcs, g = ofCumulFile priority kruskalCcs l

theorem Constructed.adjMatrix {l : List (Fin n × Fin n)} (h : Constructed g l) : g.adjMatrix = matrix l := by
  rcases h with ⟨priority, kruskalCcs, rfl, rfl⟩ | ⟨priority, kruskalCcs, rfl⟩
  · rfl
  · exact kruskal_adjMatrix

theorem Constructed.counted {l : List (Fin n × Fin n)} (h : Constructed g l) : g.Counted := by
  rcases h with ⟨priority, kruskalCcs, rfl, rfl⟩ | ⟨priority, kruskalCcs, rfl⟩
  · exact counted_of_dirty rfl
  · exact fun _ => (kruskal_spec rfl).2

theorem Constructed.coherent {l : List (Fin n × Fin n)} (h : Constructed g l) : g.Coherent := by
  rcases h with ⟨priority, kruskalCcs, rfl, rfl⟩ | ⟨priority, kruskalCcs, rfl⟩
  · exact coherent_of_dirty rfl
  · intro _
    rw [ofCumulFile, kruskal_adjMatrix]
    exact (kruskal_spec rfl).1

theorem matrix_append (l edges : List (Fin n × Fin n)) : matrix (l ++ edges) = edges.foldl toggle (matrix l) := List.foldl_append

/-- the verifier after any updates -/
theorem afterUpdates_spec (hcounted : g.Counted) (hcoherent : g.Coherent) (edges : List (Fin n × Fin n)) :
    (g.afterUpdates edges).adjMatrix = edges.foldl toggle g.adjMatrix ∧ (g.afterUpdates edges).Counted ∧
      (g.afterUpdates edges).Coherent := by
  induction edges generalizing g with
  | nil => exact ⟨rfl, hcounted, hcoherent⟩
  | cons e edges ih =>
    rw [afterUpdates, List.foldl_cons, edgeUpdate_fin]
    exact ih (counted_of_dirty rfl) (coherent_of_dirty rfl)

/-- then the components that are computed are those of the graph of the stream -/
theorem afterUpdates_components {l : List (Fin n × Fin n)} (hg : Constructed g l) (edges : List (Fin n × Fin n)) :
    (g.afterUpdates edges).kruskal.kruskalDsu.Components (oddGraph (l ++ edges)) := by
  obtain ⟨hmatrix, -, hcoherent⟩ := afterUpdates_spec hg.counted hg.coherent edges
  have hsets := hcoherent.kruskal
  rwa [hmatrix, hg.adjMatrix, ← matrix_append, graph_matrix] at hsets

/-- **The forests that are accepted.** After any updates of a verifier, `verify_spanning_forests` returns without an
exception if and only if each forest has edges of what the ones before it have left of the graph, none of them twice and
no loop, is acyclic and connects what they connect. -/
theorem verify_spanning_forests_iff {l : List (Fin n × Fin n)} (hg : Constructed g l) (edges : List (Fin n × Fin n))
    (priority : ℕ → Fin n → ℕ) (sfs : List (SpanningForest n)) :
    ((g.afterUpdates edges).verifySpanningForests priority sfs).2 = .ok () ↔
      ∀ i forest, sfs[i]? = some forest → MaximalForest (rest (oddGraph (l ++ edges)) sfs i) forest := by
  obtain ⟨hmatrix, hcounted, hcoherent⟩ := afterUpdates_spec hg.counted hg.coherent edges
  rw [verifySpanningForests, verifyForests_iff hcounted hcoherent, hmatrix, hg.adjMatrix, ← matrix_append, graph_matrix]
  constructor
  · intro h i forest hi
    obtain ⟨hlt, -⟩ := List.getElem?_eq_some_iff.1 hi
    exact h i hlt forest hi
  · intro h i _ forest hi
    exact h i forest hi

/-- one edge, and the empty forest that is left behind it -/
theorem verify_spanning_forests_iff_edge :
    MaximalForest (oddGraph [(Threads.fst, Threads.snd)]) [(Threads.snd, Threads.fst)] ∧
      MaximalForest (rest (oddGraph [(Threads.fst, Threads.snd)]) [[(Threads.snd, Threads.fst)], []] 1) [] := by
  have hok : (((new (fun _ => 7) 0).afterUpdates [(Threads.fst, Threads.snd)]).verifySpanningForests (fun _ _ => 7)
      [[(Threads.snd, Threads.fst)], []]).2 = .ok () := by decide +kernel
  have h := (verify_spanning_forests_iff (.inl ⟨_, _, rfl, rfl⟩) _ _ _).1 hok
  have h0 := h 0 _ rfl
  rw [rest_zero] at h0
  exact ⟨h0, h 1 _ rfl⟩

end GraphVerifier

end GraphStreamingCC
