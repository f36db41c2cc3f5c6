/-
Verifiers that no sequence of calls can tell apart.

- `Alike`: the same matrix and flag, and the same cached sets and count if the flag says that they are valid. `Twin`:
  alike once both have run `kruskal`.
- `call_twin`: a call of two twins has one verdict and leaves twins. `verdicts_eq_iff`: so twins, and only twins, give
  the same verdicts in all sequences of calls.
- `twin_iff`: the twins of a verifier whose cache is right.
-/
import GraphStreamingCC.Verifier.Components

namespace GraphStreamingCC.GraphVerifier

open ParentForest SpanningForest Parity DisjointSetUnion

variable {n : ℕ} {g g' : GraphVerifier n} {d d' : DisjointSetUnion n}

structure Alike (g g' : GraphVerifier n) : Prop where
  adjMatrix : g'.adjMatrix = g.adjMatrix
  flag : g'.needQueryCompute = g.needQueryCompute
  sets : g.needQueryCompute = false → ∀ x y, Same g'.kruskalDsu.parent x y ↔ Same g.kruskalDsu.parent x y
  count : g.needQueryCompute = false → g'.kruskalCcs = g.kruskalCcs

/-- no query tells the difference -/
def Twin (g g' : GraphVerifier n) : Prop := Alike g.kruskal g'.kruskal

/-- verifiers that are to compute their components need only have one matrix -/
theorem alike_of_dirty (h : g.needQueryCompute = true) (h' : g'.needQueryCompute = true) (hadj : g'.adjMatrix = g.adjMatrix) :
    Alike g g' := by
  refine ⟨hadj, h'.trans h.symm, fun hv => ?_, fun hv => ?_⟩ <;>
  · rw [h] at hv
    cases hv

theorem Alike.kruskal (h : Alike g g') : Alike g.kruskal g'.kruskal := by
  cases hq : g.needQueryCompute with
  | false => rwa [kruskal_of_valid hq, kruskal_of_valid (h.flag.trans hq)]
  | true =>
    obtain ⟨hsets, hcount⟩ := kruskal_spec hq
    obtain ⟨hsets', hcount'⟩ := kruskal_spec (h.flag.trans hq)
    rw [h.adjMatrix] at hsets'
    refine ⟨?_, ?_, fun _ x y => (hsets' x y).trans (hsets x y).symm, fun _ => ?_⟩
    · rw [kruskal_adjMatrix, kruskal_adjMatrix, h.adjMatrix]
    · rw [kruskal_needQueryCompute, kruskal_needQueryCompute]
    · rw [hcount, hcount', hsets.roots, hsets'.roots]

theorem Alike.twin (h : Alike g g') : Twin g g' := h.kruskal

theorem Twin.adjMatrix (h : Twin g g') : g'.adjMatrix = g.adjMatrix := by
  have := Alike.adjMatrix h
  rwa [kruskal_adjMatrix, kruskal_adjMatrix] at this

theorem Twin.sets (h : Twin g g') (x y : Fin n) :
    Same g'.kruskal.kruskalDsu.parent x y ↔ Same g.kruskal.kruskalDsu.parent x y :=
  Alike.sets h kruskal_needQueryCompute x y

theorem Twin.count (h : Twin g g') : g'.kruskal.kruskalCcs = g.kruskal.kruskalCcs := Alike.count h kruskal_needQueryCompute

/-! ## One call -/

theorem Alike.toggle (h : Alike g g') (e : Fin n × Fin n) :
    Alike { g with adjMatrix := toggle g.adjMatrix e, needQueryCompute := true }
      { g' with adjMatrix := GraphVerifier.toggle g'.adjMatrix e, needQueryCompute := true } := by
  apply alike_of_dirty rfl rfl
  rw [h.adjMatrix]

/-- the loop over the edges of a forest, with union-finds of one partition -/
theorem Alike.takeForest (h : Alike g g') (hd : ∀ x y, Same d'.parent x y ↔ Same d.parent x y) (es : SpanningForest n) :
    Alike (takeForest g d es).1 (takeForest g' d' es).1 ∧
      ((∃ x, (GraphVerifier.takeForest g d es).2 = .error x ∧ (GraphVerifier.takeForest g' d' es).2 = .error x) ∨
        ∃ f f', (GraphVerifier.takeForest g d es).2 = .ok f ∧ (GraphVerifier.takeForest g' d' es).2 = .ok f' ∧
          ∀ x y, Same f'.parent x y ↔ Same f.parent x y) := by
  induction es generalizing g g' d d' with
  | nil => exact ⟨h, .inr ⟨d, d', rfl, rfl, hd⟩⟩
  | cons e es ih =>
    by_cases hsame : Same d.parent e.1 e.2
    · rw [takeForest_redundant hsame, takeForest_redundant ((hd _ _).2 hsame)]
      exact ⟨h, .inl ⟨_, rfl, rfl⟩⟩
    · have hsame' := (hd e.1 e.2).not.2 hsame
      cases hadj : g.adjMatrix (cellOf e) with
      | false =>
        rw [takeForest_absent hsame hadj, takeForest_absent hsame' (by rw [h.adjMatrix, hadj])]
        exact ⟨h, .inl ⟨_, rfl, rfl⟩⟩
      | true =>
        rw [takeForest_taken hsame hadj, takeForest_taken hsame' (by rw [h.adjMatrix, hadj])]
        refine ih (h.toggle e) fun x y => ?_
        simp only [merge_same_iff, hd]

theorem compareRoots_congr {f f' : DisjointSetUnion n} (hd : ∀ x y, Same d'.parent x y ↔ Same d.parent x y)
    (hf : ∀ x y, Same f'.parent x y ↔ Same f.parent x y) :
    (compareRoots (fun _ => none) d' f' (List.finRange n)).2 = (compareRoots (fun _ => none) d f (List.finRange n)).2 := by
  rw [compareRoots_snd, compareRoots_snd]
  refine if_congr ?_ rfl rfl
  rw [translates_none, translates_none]
  exact forall_congr' fun i => forall_congr' fun j => imp_congr (hd i j) (hf i j)

theorem Alike.verifyForests (h : Alike g g') (backup : Cell n → Bool) (priority priority' : ℕ → Fin n → ℕ)
    (sfs : List (SpanningForest n)) :
    (verifyForests backup priority' g' sfs).2 = (GraphVerifier.verifyForests backup priority g sfs).2 ∧
      Alike (GraphVerifier.verifyForests backup priority g sfs).1 (GraphVerifier.verifyForests backup priority' g' sfs).1 := by
  induction sfs generalizing g g' priority priority' with
  | nil => exact ⟨rfl, rfl, h.flag, h.sets, h.count⟩
  | cons forest sfs ih =>
    have hnew : ∀ x y, Same (ofPriority (priority' 0)).parent x y ↔ Same (ofPriority (priority 0)).parent x y :=
      fun x y => (components_new _ x y).trans (components_new _ x y).symm
    obtain ⟨halike, hresult⟩ := h.kruskal.takeForest hnew forest
    -- the cached sets and count are still those of `kruskal`
    obtain ⟨hdsu, hccs, -⟩ := takeForest_cached g.kruskal (ofPriority (priority 0)) forest
    obtain ⟨hdsu', hccs', -⟩ := takeForest_cached g'.kruskal (ofPriority (priority' 0)) forest
    rw [GraphVerifier.verifyForests, GraphVerifier.verifyForests]
    rcases htake : GraphVerifier.takeForest g.kruskal (ofPriority (priority 0)) forest with ⟨k, r⟩
    rcases htake' : GraphVerifier.takeForest g'.kruskal (ofPriority (priority' 0)) forest with ⟨k', r'⟩
    rw [htake, htake'] at halike hresult
    rw [htake] at hdsu hccs
    rw [htake'] at hdsu' hccs'
    rcases hresult with ⟨x, rfl, rfl⟩ | ⟨f, f', rfl, rfl, hf⟩
    · exact ⟨rfl, rfl, halike.flag, halike.sets, halike.count⟩
    · have hsets : ∀ x y, Same k'.kruskalDsu.parent x y ↔ Same k.kruskalDsu.parent x y := by
        intro x y
        rw [hdsu, hdsu']
        exact h.twin.sets x y
      have hcount : k'.kruskalCcs = k.kruskalCcs := by
        rw [hccs, hccs']
        exact h.twin.count
      have hverdict := compareRoots_congr hsets hf
      have hroot := compareRoots_fst (fun _ => none) k.kruskalDsu f (List.finRange n)
      have hroot' := compareRoots_fst (fun _ => none) k'.kruskalDsu f' (List.finRange n)
      simp only
      rcases hcmp : compareRoots (fun _ => none) k.kruskalDsu f (List.finRange n) with ⟨c, v⟩
      rcases hcmp' : compareRoots (fun _ => none) k'.kruskalDsu f' (List.finRange n) with ⟨c', v'⟩
      rw [hcmp, hcmp'] at hverdict
      rw [hcmp] at hroot
      rw [hcmp'] at hroot'
      have hsame : ∀ x y, Same c'.parent x y ↔ Same c.parent x y := by
        intro x y
        simp only [Same, hroot, hroot'] at hsets ⊢
        exact hsets x y
      simp only at hverdict
      subst hverdict
      cases v' with
      | error x => exact ⟨rfl, rfl, halike.flag, fun _ => hsame, fun _ => hcount⟩
      | ok =>
        have hnext : Alike { k with kruskalDsu := c } { k' with kruskalDsu := c' } :=
          ⟨halike.adjMatrix, halike.flag, fun _ => hsame, fun _ => hcount⟩
        exact ih hnext _ _

theorem edgeUpdate_of_out {src dst : ℕ} (h : src ≥ n ∨ dst ≥ n) (g : GraphVerifier n) : g.edgeUpdate src dst =
    (g, .error (.badEdge ("Source " ++ toString src ++ " or Destination " ++ toString dst ++ " out of bounds!"))) := dif_pos h

/-- **One call.** Twins give one verdict and stay twins, whatever priorities the new union-finds have. -/
theorem call_twin (h : Twin g g') {l l' : Label n} (hl : l'.call = l.call) :
    (g'.call l').2 = (g.call l).2 ∧ Twin (g.call l).1 (g'.call l').1 := by
  unfold call
  rw [hl]
  cases l.call with
  | edgeUpdate src dst =>
    by_cases hout : src ≥ n ∨ dst ≥ n
    · simp only [edgeUpdate_of_out hout]
      exact ⟨trivial, h⟩
    · simp only [edgeUpdate, dif_neg hout]
      exact ⟨trivial, (alike_of_dirty rfl rfl (by rw [h.adjMatrix])).twin⟩
  | verifyEdge e =>
    simp only [verifyEdge, h.adjMatrix]
    exact ⟨trivial, h⟩
  | verifyConnectedComponents cc =>
    obtain ⟨hadj, hvalid, hcount, hroot⟩ := g.verifyConnectedComponents_fst cc
    obtain ⟨hadj', hvalid', hcount', hroot'⟩ := g'.verifyConnectedComponents_fst cc
    simp only
    constructor
    · rw [verifyConnectedComponents_snd, verifyConnectedComponents_snd, h.count]
      refine if_congr Iff.rfl rfl (if_congr ?_ rfl rfl)
      exact forall_congr' fun i => forall_congr' fun j => imp_congr (h.sets i j) Iff.rfl
    · refine Alike.twin ⟨?_, hvalid'.trans hvalid.symm, fun _ x y => ?_, fun _ => ?_⟩
      · rw [hadj, hadj', h.adjMatrix]
      · have hsets := h.sets x y
        simp only [Same, hroot, hroot'] at hsets ⊢
        exact hsets
      · rw [hcount, hcount', h.count]
  | verifySpanningForests sfs =>
    cases sfs with
    | nil => exact ⟨rfl, h⟩
    | cons forest sfs =>
      simp only [verifySpanningForests]
      have hkruskal : ∀ (k : GraphVerifier n) (priority : ℕ → Fin n → ℕ),
          verifyForests k.adjMatrix priority k (forest :: sfs) =
            verifyForests k.adjMatrix priority k.kruskal (forest :: sfs) := by
        intro k priority
        rw [verifyForests, verifyForests, kruskal_of_valid kruskal_needQueryCompute]
      obtain ⟨hverdict, halike⟩ := Alike.verifyForests h g.adjMatrix l.priority l'.priority (forest :: sfs)
      rw [hkruskal g, hkruskal g', h.adjMatrix]
      exact ⟨hverdict, halike.twin⟩

/-! ## All sequences of calls -/

theorem verdicts_twin (h : Twin g g') {ls ls' : List (Label n)} (hls : ls'.map Label.call = ls.map Label.call) :
    g'.verdicts ls' = g.verdicts ls := by
  induction ls generalizing g g' ls' with
  | nil =>
    rw [List.map_nil, List.map_eq_nil_iff] at hls
    rw [hls]
    rfl
  | cons l ls ih =>
    cases ls' with
    | nil => cases hls
    | cons l' ls' =>
      rw [List.map_cons, List.map_cons, List.cons.injEq] at hls
      obtain ⟨hverdict, htwin⟩ := call_twin h hls.1
      rw [verdicts, verdicts, hverdict, ih htwin hls.2]

/-- the object that a verifier accepts -/
def answer (g : GraphVerifier n) : ConnectedComponents n := ⟨root g.kruskal.kruskalDsu.parent, g.kruskal.kruskalDsu.roots⟩

theorem accepts_answer (h : g.Counted) : (g.verifyConnectedComponents g.answer).2 = .ok () :=
  (accepted_iff _ _).2 ⟨h.kruskal, fun _ _ hij => hij⟩

/-- **Twins cannot be told apart, and others can.** -/
theorem verdicts_eq_iff (h : g.Counted) (h' : g'.Counted) :
    (∀ ls ls' : List (Label n), ls'.map Label.call = ls.map Label.call → g'.verdicts ls' = g.verdicts ls) ↔ Twin g g' := by
  constructor
  · intro hall
    have hone : ∀ c : Call n, (g'.call ⟨fun _ _ => 0, c⟩).2 = (g.call ⟨fun _ _ => 0, c⟩).2 := by
      intro c
      have := hall [⟨fun _ _ => 0, c⟩] [⟨fun _ _ => 0, c⟩] rfl
      rw [verdicts, verdicts] at this
      exact (List.cons.inj this).1
    have hadj : g'.adjMatrix = g.adjMatrix := by
      refine matrix_ext fun e => ?_
      have he := hone (.verifyEdge e)
      simp only [call, verifyEdge] at he
      cases h1 : g.adjMatrix (cellOf e) <;> cases h2 : g'.adjMatrix (cellOf e) <;> rw [h1, h2] at he <;> first | rfl | cases he
    -- each accepts what the other one accepts
    have haccept := (accepted_iff g' g.answer).1 ((hone (.verifyConnectedComponents g.answer)).trans (accepts_answer h))
    have haccept' := (accepted_iff g g'.answer).1 ((hone (.verifyConnectedComponents g'.answer)).symm.trans (accepts_answer h'))
    refine ⟨?_, ?_, fun _ x y => ⟨haccept.2 x y, haccept'.2 x y⟩, fun _ => ?_⟩
    · rw [kruskal_adjMatrix, kruskal_adjMatrix, hadj]
    · rw [kruskal_needQueryCompute, kruskal_needQueryCompute]
    · rw [haccept.1, h.kruskal]
      rfl
  · intro htwin ls ls' hls
    exact verdicts_twin htwin hls

/-- the twins of a verifier whose cache is right -/
theorem twin_iff (hcounted : g.Counted) (hcoherent : g.Coherent) (hcounted' : g'.Counted) (hadj : g'.adjMatrix = g.adjMatrix) :
    Twin g g' ↔ g'.kruskal.kruskalDsu.Components (graph g.adjMatrix) := by
  have hsets := hcoherent.kruskal
  constructor
  · intro h x y
    exact (h.sets x y).trans (hsets x y)
  · intro h
    refine ⟨?_, ?_, fun _ x y => (h x y).trans (hsets x y).symm, fun _ => ?_⟩
    · rw [kruskal_adjMatrix, kruskal_adjMatrix, hadj]
    · rw [kruskal_needQueryCompute, kruskal_needQueryCompute]
    · rw [hcounted.kruskal, hcounted'.kruskal, hsets.roots, h.roots]

end GraphStreamingCC.GraphVerifier
