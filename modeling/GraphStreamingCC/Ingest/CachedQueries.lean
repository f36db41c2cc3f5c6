/-
Are the answers read off the eager union-find correct?

The cache itself is: whenever no update runs and the cache is valid, the sets of the union-find are the components of the
graph of all edges toggled an odd number of times, and the forest is a spanning forest of it. `point_query` and
`calc_spanning_forest` answer correctly. `ConnectedComponents` calls `find_root` from all threads of a team, and there one
thread's halving store can make another's loop test compare the grandparent with itself, so that it returns an item that
is no root (`components_race`): two vertices of one component get different entries in `parent_arr`.

`cached_answers`: in every run in which each such call makes its last load, `return parent[u]`, in a state where that
parent is a root, every answer is correct; the first part needs no condition on the loads.
-/
import GraphStreamingCC.Ingest.CacheInvariant

namespace GraphStreamingCC.Eager

open Dsu ParentForest SpanningForest Parity Runs

variable {n T : ℕ} {priority : Fin n → ℕ} {s s' : St n T}

/-! ## Answers -/

/-- the answer is right for the graph G -/
def Answer.Correct (G : SimpleGraph (Fin n)) : Answer n → Prop
  | .components arr size => (∀ a b, arr a = arr b ↔ G.Reachable a b) ∧ size = Nat.card G.ConnectedComponent
  | .spanningForest forest => IsSpanningForest (setGraph forest) G ∧ ∀ v, ∀ w ∈ forest v, v < w
  | .connected a b answer => answer = true ↔ G.Reachable a b

/-- if thread t of the team is about to return from `find_root`, it loads a root -/
def QueryPc.FinalLoad (p : Fin n → Fin n) (t : Fin T) : QueryPc n T → Prop
  | .team _ thr _ => ∀ x ∈ (thr t).cur, x.2.FinalLoad p
  | _ => True

/-- the condition on a run: so does every call of `find_root` in the OpenMP loop -/
def FinalLoad (s : St n T) : Label n T → Prop
  | .team t _ => s.query.FinalLoad s.parent t
  | _ => True

instance (p : Fin n → Fin n) (t : Fin T) : (q : QueryPc n T) → Decidable (q.FinalLoad p t)
  | .team _ thr _ => inferInstanceAs (Decidable (∀ x ∈ (thr t).cur, x.2.FinalLoad p))
  | .idle | .testValid _ | .boruvka _ | .ready _ | .first .. | .second .. | .answered _ => inferInstanceAs (Decidable True)

instance (s : St n T) : (l : Label n T) → Decidable (FinalLoad s l)
  | .team t _ => inferInstanceAs (Decidable (s.query.FinalLoad s.parent t))
  | .preInsert .. | .thread .. | .query _ | .querier _ | .boruvka .. | .join => inferInstanceAs (Decidable True)

/-- what a valid cache is worth when no update runs -/
theorem Inv.forest (h : Inv priority s) (ha : ∀ t, s.thr t = none) (hv : s.dsuValid = true) :
    IsSpanningForest (setGraph s.spanningForest) (oddGraph s.updates) ∧
      ∀ u v, (oddGraph s.updates).Reachable u v ↔ Same s.parent u v := by
  obtain ⟨hspans, hle, hsame⟩ := h.cached hv
  rw [forestGraph_alone ha] at hspans hle
  rw [h.seen_eq ha] at hle hsame
  have hf : IsSpanningForest (setGraph s.spanningForest) (oddGraph s.updates) :=
    ⟨hle, hspans.acyclic, fun u v => reachable_of_adj fun x y hxy => (hspans.reach x y).2 (hsame x y hxy)⟩
  exact ⟨hf, fun u v => by rw [← hf.reachable_iff, hspans.reach]⟩

/-! ## Queries in progress -/

/-- vertex v is still to do for this thread, or being done -/
def TeamThread.has (x : TeamThread n) (v : Fin n) : Prop := v ∈ x.todo ∨ ∃ f, x.cur = some (v, f)

/-- what the query has found out so far -/
def QueryPc.Exact (p : Fin n → Fin n) (G : SimpleGraph (Fin n)) : QueryPc n T → Prop
  | .team _ thr arr => ∀ v, (∃ t, (thr t).has v) ∨ arr v = root p v
  | .first _ _ _ f => f.Exact p
  | .second o a b r f => r = root p (pick o a b) ∧ f.Exact p
  | .answered a => a.Correct G
  | _ => True

theorem has_update {thr : Fin T → TeamThread n} {t : Fin T} {x : TeamThread n} {v : Fin n}
    (h : ∃ t', (thr t').has v) (hx : (thr t).has v → x.has v) : ∃ t', (Function.update thr t x t').has v := by
  obtain ⟨t', ht'⟩ := h
  by_cases ht : t' = t
  · subst ht
    exact ⟨t', by rw [Function.update_self]; exact hx ht'⟩
  · exact ⟨t', by rwa [Function.update_of_ne ht]⟩

theorem Inv.team_exact (h : Inv priority s) {q : Query n T} {thr : Fin T → TeamThread n} {arr : Fin n → Fin n}
    (hq : s.query = .team q thr arr) {t : Fin T} (hl : ∀ x ∈ (thr t).cur, x.2.FinalLoad s.parent)
    (he : s.query.Exact s.parent (oddGraph s.updates)) {o : Side} (hs : teamStep s q thr arr t o = some s') :
    s'.query.Exact s'.parent (oddGraph s'.updates) := by
  have hfinds := h.query
  rw [hq] at he hfinds
  cases hcur : (thr t).cur with
  | none =>
    cases htodo : (thr t).todo with
    | nil => simp [teamStep, hcur, htodo] at hs
    | cons v vs =>
      simp only [teamStep, hcur, htodo, Option.some.injEq] at hs
      subst hs
      intro w
      refine (he w).imp_left fun hw => has_update hw ?_
      rintro (hm | ⟨f, hf⟩)
      · rw [htodo] at hm
        rcases List.mem_cons.1 hm with rfl | hm
        · exact .inr ⟨_, rfl⟩
        · exact .inl hm
      · rw [hcur] at hf
        cases hf
  | some x =>
    obtain ⟨hqu, -⟩ := FindPc.step_spec h.ord (hfinds t x hcur) o
    simp only [teamStep, hcur] at hs
    rcases hst : x.2.step s.parent o with ⟨p', f' | r⟩ <;> rw [hst] at hs hqu <;> cases hs <;> intro w
    · refine (he w).imp (fun hw => has_update hw ?_) fun hw => hw.trans (hqu.root_eq h.ord w).symm
      rintro (hm | ⟨f, hf⟩)
      · exact .inl hm
      · rw [hcur] at hf
        cases hf
        exact .inr ⟨f', rfl⟩
    · -- the call returns: its vertex is done, with the root
      obtain ⟨rfl, hr⟩ := FindPc.root_of_finalLoad h.ord (hfinds t x hcur) (hl x hcur) hst
      by_cases hw : w = x.1
      · subst hw
        exact .inr (by rw [Function.update_self]; exact hr)
      · rw [Function.update_of_ne hw]
        refine (he w).imp_left fun hw' => has_update hw' ?_
        rintro (hm | ⟨f, hf⟩)
        · exact .inl hm
        · rw [hcur] at hf
          cases hf
          exact absurd rfl hw

/-- the second operand of `dsu.find_root(a) == dsu.find_root(b)` decides -/
theorem correct_connected (ha : ∀ t, s.thr t = none) (hv : s.dsuValid = true) (h : Inv priority s) (o : Side)
    (a b : Fin n) : (Answer.connected a b (root s.parent (pick o a b) == root s.parent (pick o.other a b))).Correct
      (oddGraph s.updates) := by
  rw [Answer.Correct, (h.forest ha hv).2, beq_iff_eq]
  cases o with
  | left => exact Iff.rfl
  | right => exact eq_comm

theorem Inv.querier_exact (h : Inv priority s) (he : s.query.Exact s.parent (oddGraph s.updates)) {o : Side}
    (hs : querierStep s o = some s') : s'.query.Exact s'.parent (oddGraph s'.updates) := by
  have hq := h.query
  unfold querierStep at hs
  split at hs
  next a b hpc => cases hs; split_ifs <;> trivial
  next q _ hpc => cases hs; split_ifs <;> trivial
  next a b hpc =>
    cases hs
    exact fun z' hz => by cases hz
  next owner hpc =>
    cases hs
    exact fun v => .inl ⟨owner v, .inl (by simp)⟩
  next owner hpc =>
    cases hs
    exact fun v => .inl ⟨owner v, .inl (by simp)⟩
  next o' a b f hpc =>
    rw [hpc] at he hq
    rcases hst : f.step s.parent o with ⟨p', f' | r⟩ <;> rw [hst] at hs <;> cases hs
    · exact FindPc.exact_step he o hst
    · obtain ⟨rfl, hr⟩ := FindPc.root_of_finalLoad h.ord hq (FindPc.Exact.finalLoad he) hst
      exact ⟨hr, fun z' hz => by cases hz⟩
  next o' a b r f hpc =>
    have ha := h.alone (by rw [hpc]; rfl)
    have hv : s.dsuValid = true := h.busy (by rw [hpc]; rfl)
    rw [hpc] at he hq
    obtain ⟨hqu, -⟩ := FindPc.step_spec h.ord hq o
    rcases hst : f.step s.parent o with ⟨p', f' | r'⟩ <;> rw [hst] at hs hqu <;> cases hs
    · exact ⟨he.1.trans (hqu.root_eq h.ord _).symm, FindPc.exact_step he.2 o hst⟩
    · obtain ⟨rfl, hr⟩ := FindPc.root_of_finalLoad h.ord hq (FindPc.Exact.finalLoad he.2) hst
      rw [he.1, hr]
      exact correct_connected ha hv h o' a b
  next => cases hs

/-- when the team has finished, the array holds the roots -/
theorem Inv.join_exact (h : Inv priority s) (ha : ∀ t, s.thr t = none) (hv : s.dsuValid = true) {arr : Fin n → Fin n}
    (harr : ∀ v, arr v = root s.parent v) (q : Query n T) : (answerOf s arr q).Correct (oddGraph s.updates) := by
  obtain ⟨hf, hr⟩ := h.forest ha hv
  have hcomp : (Answer.components arr (Finset.univ.filter fun v => arr v = v).card).Correct (oddGraph s.updates) := by
    refine ⟨fun a b => by rw [hr, harr, harr]; rfl, ?_⟩
    rw [← card_roots_eq_components h.ord hr]
    congr 1
    ext v
    rw [Finset.mem_filter, Finset.mem_filter, harr]
    exact and_congr_right fun _ => ⟨fun hv => by rw [← hv]; exact h.ord.root_fixed v, root_of_fixed⟩
  cases q with
  | calcSpanningForest owner => exact ⟨hf, h.oriented⟩
  | connectedComponents owner => exact hcomp
  | pointQuery a b => exact hcomp

/-- an update touches neither the query nor the record of updates -/
theorem insertStep_frame {t : Fin T} {o : Side} {c : PreInsert n} (hs : insertStep priority s t o c = some s') :
    s'.query = s.query ∧ s'.updates = s.updates := by
  unfold insertStep at hs
  split at hs <;> (try split at hs) <;> (try split at hs) <;> cases hs <;> exact ⟨rfl, rfl⟩

theorem step_exact {l : Label n T} (hl : FinalLoad s l) (h : Inv priority s)
    (he : s.query.Exact s.parent (oddGraph s.updates)) (hs : step priority s l = some s') :
    s'.query.Exact s'.parent (oddGraph s'.updates) := by
  cases l with
  | preInsert t upd =>
    simp only [step] at hs
    split_ifs at hs
    cases hs
    trivial
  | thread t o =>
    simp only [step] at hs
    split at hs
    next => cases hs
    next c hc =>
      obtain ⟨hq, hu⟩ := insertStep_frame hs
      have hfree := h.free hc
      rw [hq, hu]
      cases hpc : s.query <;> simp only [hpc, QueryPc.free, Bool.false_eq_true] at hfree <;> rw [hpc] at he
      · trivial
      · exact he
  | query q =>
    simp only [step] at hs
    split_ifs at hs
    cases hs
    trivial
  | querier o => exact h.querier_exact he hs
  | boruvka parent forest =>
    simp only [step] at hs
    split at hs
    next q hq => cases hs; trivial
    next => cases hs
  | team t o =>
    simp only [step] at hs
    split at hs
    next q thr arr hq =>
      simp only [FinalLoad, hq] at hl
      exact h.team_exact hq hl he hs
    next => cases hs
  | join =>
    simp only [step] at hs
    split at hs
    next q thr arr hq =>
      split_ifs at hs with hdone
      cases hs
      rw [hq] at he
      refine h.join_exact (h.alone (by rw [hq]; rfl)) (h.busy (by rw [hq]; rfl)) (fun v => ?_) q
      refine (he v).resolve_left ?_
      rintro ⟨t, hm | ⟨f, hf⟩⟩
      · rw [(hdone t).1] at hm
        cases hm
      · rw [(hdone t).2] at hf
        cases hf
    next => cases hs

/-! ## Runs -/

/-- **The eager cache and its answers.** In every run of updates by any threads and of queries, where
`boruvka_emulation` is assumed to leave the components and a spanning forest: when no update runs, the two validity
flags agree, and if the cache is valid, the sets are the components of the graph of all edges toggled an odd number of
times and the forest is a spanning forest of it, its pairs with the smaller end point first. If moreover every
`find_root` of the OpenMP loop makes its last load where that load gives a root, every answer is correct for that graph,
so all queries agree. -/
theorem cached_answers {ls : List (Label n T)} (hb : Meets (step priority) (Restores priority) (init n T) ls)
    (hs : exec (step priority) (init n T) ls = some s) :
    ((∀ t, s.thr t = none) → s.sharedDsuValid = s.dsuValid ∧
      (s.dsuValid = true → (∀ u v, Same s.parent u v ↔ (oddGraph s.updates).Reachable u v) ∧
        IsSpanningForest (setGraph s.spanningForest) (oddGraph s.updates) ∧ ∀ v, ∀ w ∈ s.spanningForest v, v < w)) ∧
    (Meets (step priority) FinalLoad (init n T) ls → ∀ a, s.query = .answered a → a.Correct (oddGraph s.updates)) := by
  constructor
  · have h : Inv priority s :=
      exec_invariant_of_meets _ (fun _ _ _ h hl hs => step_inv hl h hs) (inv_init priority) hb hs
    intro ha
    refine ⟨h.flags_eq ha, fun hv => ?_⟩
    obtain ⟨hf, hr⟩ := h.forest ha hv
    exact ⟨fun u v => (hr u v).symm, hf, h.oriented⟩
  · intro hl a hq
    have h : Inv priority s ∧ s.query.Exact s.parent (oddGraph s.updates) :=
      exec_invariant_of_meets (I := fun s => Inv priority s ∧ s.query.Exact s.parent (oddGraph s.updates)) _
        (fun _ _ _ h hl hs => ⟨step_inv hl.1 h.1 hs, step_exact hl.2 h.1 h.2 hs⟩) ⟨inv_init priority, trivial⟩
        (meets_and _ hb hl) hs
    have := h.2
    rwa [hq] at this

/-- what a query has returned: the entries of `parent_arr`, and `num_cc` -/
def QueryPc.entries : QueryPc n T → List (Fin n) × ℕ
  | .answered (.components arr size) => ((List.finRange n).map arr, size)
  | _ => ([], 0)

/-- thread 0 runs `pre_insert` of an edge between two roots, alone -/
def insertAlone (e : Fin n × Fin n) : List (Label n 2) :=
  .preInsert Threads.fst e :: List.replicate 14 (.thread Threads.fst .left)

/-- `connected_components` with a cached answer: the OpenMP loop begins, with vertex v for thread 0 and the rest for
thread 1 -/
def beginComponents (v : Fin n) : List (Label n 2) :=
  [.query (.connectedComponents fun w => if w = v then Threads.fst else Threads.snd), .querier .left, .querier .left]

/-- k steps of thread t of the team -/
def teamRun (t : Fin 2) (k : ℕ) : List (Label n 2) := List.replicate k (.team t .left)

/-- the chain 0 → 1 → .. → 5 under growing priorities; thread 0 is in `find_root(2)` while thread 1 passes 2 on its way
from 0 -/
def raceRun : List (Label 6 2) :=
  List.flatten
    [insertAlone (0, 1), insertAlone (1, 2), insertAlone (2, 3), insertAlone (3, 4), insertAlone (4, 5), beginComponents 2,
      -- thread 0 loads parent[2] = 3 and parent[3] = 4; thread 1 halves 0 and then 2; thread 0 loads parent[2] = 4
      teamRun Threads.fst 3, teamRun Threads.snd 14, teamRun Threads.fst 2, teamRun Threads.snd 39, [.join]]

theorem raceRun_entries :
    (exec (step fun u : Fin 6 => u.val) (init 6 2) raceRun).map (fun s => (s.query.entries, s.updates)) =
      some (([5, 5, 4, 5, 5, 5], 1), [(4, 5), (3, 4), (2, 3), (1, 2), (0, 1)]) := by
  decide +kernel

/-- a run without `boruvka_emulation` assumes nothing of it -/
theorem restores_of_cached {ls : List (Label n T)} (h : ∀ l ∈ ls, ∀ p f, l ≠ .boruvka p f) (s : St n T) :
    Meets (step priority) (Restores priority) s ls := by
  refine meets_of_forall _ (fun l hl s => ?_) s
  cases l with
  | boruvka p f => exact absurd rfl (h _ hl p f)
  | preInsert | thread | query | querier | team | join => trivial

/-- **A wrong answer.** The six vertices are one component, and `num_cc` is 1, but vertex 2 has the entry 4 and vertex 5
the entry 5. -/
theorem components_race :
    ∃ s a, Meets (step fun u : Fin 6 => u.val) (Restores fun u => u.val) (init 6 2) raceRun ∧
      exec (step fun u : Fin 6 => u.val) (init 6 2) raceRun = some s ∧ s.query = .answered a ∧
      ¬ a.Correct (oddGraph s.updates) := by
  obtain ⟨s, hs, he⟩ := Option.map_eq_some_iff.1 raceRun_entries
  obtain ⟨he, hu⟩ := Prod.mk.inj he
  have hb : ∀ l ∈ raceRun, ∀ p f, l ≠ .boruvka p f := by
    simp [raceRun, insertAlone, beginComponents, teamRun]
  unfold QueryPc.entries at he
  split at he
  next arr size hq =>
    refine ⟨s, _, restores_of_cached hb _, hs, hq, fun hc => ?_⟩
    have h25 : (oddGraph s.updates).Reachable 2 5 := by
      rw [hu]
      have h23 : (oddGraph [(4, 5), (3, 4), (2, 3), (1, 2), (0, 1)]).Adj (2 : Fin 6) 3 := oddGraph_adj.2 (by decide)
      have h34 : (oddGraph [(4, 5), (3, 4), (2, 3), (1, 2), (0, 1)]).Adj (3 : Fin 6) 4 := oddGraph_adj.2 (by decide)
      have h45 : (oddGraph [(4, 5), (3, 4), (2, 3), (1, 2), (0, 1)]).Adj (4 : Fin 6) 5 := oddGraph_adj.2 (by decide)
      exact h23.reachable.trans (h34.reachable.trans h45.reachable)
    have h2 : arr 2 = 4 := by
      have := congrArg (fun x => x.1[2]?) he
      simpa using this
    have h5 : arr 5 = 5 := by
      have := congrArg (fun x => x.1[5]?) he
      simpa using this
    have := (hc.1 2 5).2 h25
    rw [h2, h5] at this
    exact absurd this (by decide)
  next => cases he

/-- one edge, inserted and queried alone -/
def aloneRun : List (Label 2 2) :=
  List.flatten [insertAlone (Threads.fst, Threads.snd), beginComponents Threads.fst, teamRun Threads.fst 5,
    teamRun Threads.snd 5, [.join]]

theorem cached_answers_alone :
    ∃ s a, exec (step fun u : Fin 2 => u.val) (init 2 2) aloneRun = some s ∧ s.query = .answered a ∧
      a.Correct (oddGraph s.updates) := by
  have hb : ∀ l ∈ aloneRun, ∀ p f, l ≠ .boruvka p f := by
    simp [aloneRun, insertAlone, beginComponents, teamRun]
  have he : (exec (step fun u : Fin 2 => u.val) (init 2 2) aloneRun).map (fun s => s.query.entries) =
      some ([1, 1], 1) := by decide
  obtain ⟨s, hs, he⟩ := Option.map_eq_some_iff.1 he
  unfold QueryPc.entries at he
  split at he
  next arr size hq =>
    exact ⟨s, _, hs, hq, (cached_answers (restores_of_cached hb _) hs).2 (by decide) _ hq⟩
  next => cases he

end GraphStreamingCC.Eager
