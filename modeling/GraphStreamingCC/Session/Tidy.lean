/-
What holds in every session, whatever the hash does and however the calls of `find_root` race.

`boruvka_emulation` may then return wrong components. But what it leaves is still a union-find and a `spanning_forest` whose
pairs have the smaller vertex first (`tidy_step`), the calls of `pre_insert` keep this (`Eager.step_tidy`), and a query reads
it alone. So `point_query` compares the sets of the union-find, and the entries of a `ConnectedComponents` are members of the
sets, of which only roots are their own entries (`QueryPc.Tidy`).
-/
import GraphStreamingCC.Session.Parts
import GraphStreamingCC.Session.Account

namespace GraphStreamingCC

/-! ## `find_root` -/

namespace Dsu

open ParentForest

variable {n : ℕ} {β : Type*} [LinearOrder β] {rk : Fin n → β} {p p' : Fin n → Fin n}

/-- only a root is found from itself -/
theorem FindPc.fixed_of_returned (ho : Ordered rk p) {u0 : Fin n} {f : FindPc n} (hc : f.Climbs rk p u0) {o : Side}
    (hs : f.step p o = (p', .inr u0)) : p u0 = u0 := by
  cases f with
  | ret u =>
    simp only [FindPc.step, Prod.mk.injEq, Sum.inr.injEq] at hs
    obtain ⟨-, hu⟩ := hs
    have hfixed : p u = u := by
      by_contra hne
      have hlt := ho u hne
      rw [hu] at hlt
      exact absurd hc.rank hlt.not_ge
    rw [← hu, hfixed, hfixed]
  | outer u z => cases z <;> cases o <;> cases hs
  | inner u x z => cases z <;> cases o <;> cases hs
  | right | halveOuter | halveInner | store | reload => cases hs

end Dsu

/-! ## `boruvka_emulation` -/

namespace Boruvka.Emulation

open Dsu ParentForest SpanningForest

variable {P : Params} {n T : ℕ} {owner : Fin n → Fin T} {priority : Fin n → ℕ} {s s' : St P n T}

/-- what any run keeps: a union-find, and a forest that spans its sets -/
def Phase.Tidy (priority : Fin n → ℕ) : Phase P n T → Prop
  | .round _ w => DsuInv priority w ∧ (∃ σ, SimInv σ w) ∧ Boruvka.ForestInv ⊤ w
  | .create w c => Forested ⊤ priority w ∧ Create.RootInv priority w.parent (Same w.parent) c
  | .returned _ w | .threw _ w => Forested ⊤ priority w

theorem tidy_round {parent : Fin n → Fin n} {forest : Fin n → Finset (Fin n)} (ho : Ordered (Dsu.rank priority) parent)
    (hspans : Spans parent (setGraph forest)) (hbelow : ∀ v, ∀ u ∈ forest v, v < u) (curRound : ℕ)
    (mergeInstr : Fin n → MergeInstr n) (sketches : Fin n → Sketch P) :
    (performBoruvkaRound owner curRound mergeInstr sketches parent forest).Tidy priority :=
  ⟨⟨ho, fun t e m h => by cases h⟩, ⟨_, simInv_start _ _ _ _⟩, forestInv_start hspans hbelow le_top _ _⟩

theorem tidy_start (owner : Fin n → Fin T) (priority : Fin n → ℕ) (sketches : Fin n → Sketch P) :
    (start owner sketches).phase.Tidy priority := by
  have hempty : setGraph (fun _ : Fin n => (∅ : Finset (Fin n))) = ⊥ := by
    ext u v
    simp [setGraph_adj]
  apply tidy_round
  · exact fun u hu => absurd rfl hu
  · exact hempty ▸ spans_init
  · exact fun v u hu => by cases hu

theorem forested_of_round {w : Boruvka.St P n T} (hdsu : DsuInv priority w) (h : Boruvka.ForestInv ⊤ w) (hd : Boruvka.Done w) :
    Forested ⊤ priority w := by
  have hgraph : w.forestGraph = setGraph w.spanningForest := forestGraph_of_not_at fun e => hd.not_at fun hc => by cases hc
  exact ⟨hdsu.ord, hgraph ▸ h.spans, h.below, le_top⟩

theorem tidy_step (h : s.phase.Tidy priority) {l : Label n T} (hs : step owner priority s l = some s') :
    s'.phase.Tidy priority := by
  cases l with
  | thread t o =>
    simp only [step] at hs
    split at hs
    next mergeInstr w hphase =>
      rw [hphase] at h
      obtain ⟨hdsu, ⟨σ, hsim⟩, hforest⟩ := h
      obtain ⟨w', hw, rfl⟩ := Option.map_eq_some_iff.1 hs
      exact ⟨(hdsu.step hw).1, ⟨σ, hsim.step hdsu hw⟩, hforest.step hdsu hsim hw⟩
    all_goals cases hs
  | create l =>
    simp only [step] at hs
    split at hs
    next w c hphase =>
      rw [hphase] at h
      obtain ⟨c', hc, rfl⟩ := Option.map_eq_some_iff.1 hs
      exact ⟨h.1, h.2.step_same hc⟩
    all_goals cases hs
  | join =>
    rcases join_cases hs with ⟨mergeInstr, w, hphase, hd, hcase⟩ | ⟨w, c, hphase, hd, rfl⟩ <;> rw [hphase] at h
    · have hforested := forested_of_round h.1 h.2.2 hd
      rcases hcase with ⟨e, -, rfl⟩ | ⟨-, -, rfl⟩ | ⟨-, -, rfl⟩
      · exact hforested
      · exact ⟨hforested, Create.rootInv_start hforested.ord mergeInstr⟩
      · exact hforested
    · obtain ⟨hforested, hroot⟩ := h
      exact tidy_round hroot.ord (hforested.spans.of_root_eq hforested.ord hroot.ord hroot.root) hforested.below _ _ _

end Boruvka.Emulation

/-! ## The union-find between two calls -/

namespace Eager

open Dsu ParentForest

variable {n T : ℕ} {priority : Fin n → ℕ} {s s' : St n T} {t : Fin T}

/-- what a query knows, if the sets may be wrong -/
def QueryPc.Tidy (priority : Fin n → ℕ) (p : Fin n → Fin n) : QueryPc n T → Prop
  | .team _ thr arr => (∀ t, ∀ x ∈ (thr t).cur, x.2.Inv (rank priority) p x.1 ∧ x.2.Climbs (rank priority) p x.1) ∧
      ∀ v, (∃ t, (thr t).has v) ∨ Same p (arr v) v ∧ (arr v = v → p v = v)
  | .first o a b f => f.Inv (rank priority) p (pick o a b) ∧ f.Exact p
  | .second o a b r f => r = root p (pick o a b) ∧ f.Inv (rank priority) p (pick o.other a b) ∧ f.Exact p
  | .idle | .testValid _ | .boruvka _ | .ready _ | .answered _ => True

structure Tidy (priority : Fin n → ℕ) (s : St n T) : Prop where
  ord : Ordered (rank priority) s.parent
  call : ∀ t, CallInv priority s.parent (s.thr t)
  oriented : ∀ v, ∀ w ∈ s.spanningForest v, v < w
  alone : s.query.free = false → ∀ t, s.thr t = none
  query : s.query.Tidy priority s.parent

theorem tidy_of_free {pc : QueryPc n T} (h : pc.free = true) (priority : Fin n → ℕ) (p : Fin n → Fin n) : pc.Tidy priority p := by
  cases pc with
  | idle | answered => trivial
  | testValid | boruvka | ready | team | first | second => cases h

theorem tidy_init (priority : Fin n → ℕ) : Tidy priority (init n T) where
  ord u hu := absurd rfl hu
  call t := of_none
  oriented v w hw := by cases hw
  alone hf := by cases hf
  query := trivial

/-! ### `pre_insert` -/

/-- thread t is in a call, so that no query runs -/
theorem Tidy.free (h : Tidy priority s) {c : PreInsert n} (hc : s.thr t = some c) : s.query.free = true := by
  by_contra hf
  rw [h.alone (by simpa using hf) t] at hc
  cases hc

/-- the call of thread t goes on -/
theorem Tidy.move (h : Tidy priority s) {c : PreInsert n} (hc : s.thr t = some c) {x : Option (PreInsert n)}
    (hg : Grows s.parent s'.parent) (ho : Ordered (rank priority) s'.parent) (hx : CallInv priority s'.parent x)
    (hthr : s'.thr = Function.update s.thr t x) (horiented : ∀ v, ∀ w ∈ s'.spanningForest v, v < w)
    (hquery : s'.query = s.query) : Tidy priority s' := by
  have hfree := h.free hc
  have hmono : ∀ t', CallInv priority s'.parent (s.thr t') := fun t' c' hc' =>
    ⟨(h.call t' c' hc').1, (h.call t' c' hc').2.mono hg⟩
  refine ⟨ho, fun t' => ?_, horiented, fun hf => ?_, hquery ▸ tidy_of_free hfree _ _⟩
  · rw [hthr]
    exact Threads.forall_update (Q := fun _ => CallInv priority s'.parent) hmono hx t'
  · rw [hquery, hfree] at hf
    cases hf

/-- it goes on without a write to the union-find or the forest -/
theorem Tidy.goto (h : Tidy priority s) {c : PreInsert n} (hc : s.thr t = some c) {x : Option (PreInsert n)}
    (hx : CallInv priority s.parent x) (hparent : s'.parent = s.parent) (hforest : s'.spanningForest = s.spanningForest)
    (hthr : s'.thr = Function.update s.thr t x) (hquery : s'.query = s.query) : Tidy priority s' :=
  h.move hc (hparent ▸ Grows.refl _) (hparent ▸ h.ord) (hparent ▸ hx) hthr (hforest ▸ h.oriented) hquery

/-- a call that has nothing to remember -/
theorem Tidy.callInv (h : Tidy priority s) {c : PreInsert n} (hc : s.thr t = some c) {p : Fin n → Fin n} {x : InsertPc n}
    (hx : x.Inv priority p c.src c.dst) : CallInv priority p (some { c with pc := x }) := by
  intro c' hc'
  cases hc'
  exact ⟨(h.call t c hc).1, hx⟩

theorem Tidy.merge (h : Tidy priority s) {c : PreInsert n} (hc : s.thr t = some c) {m : MergePc n} (hpc : c.pc = .merge m)
    {o : Side} (hs : insertStep priority s t o c = some s') : Tidy priority s' := by
  have hm : m.Inv priority s.parent c.src c.dst := by
    have hinv := (h.call t c hc).2
    rwa [hpc] at hinv
  have hpost := MergePc.step_spec h.ord hm o
  simp only [insertStep, hpc] at hs
  rcases hst : m.step priority s.parent o with ⟨q, m' | r⟩ <;> rw [hst] at hs hpost <;> simp only at hs
  · cases hs
    exact h.move hc (hpost.1.grows h.ord) (hpost.1.ordered h.ord) (h.callInv hc (x := .merge m') hpost.2) rfl h.oriented rfl
  · rcases hpost with ⟨hr, hl⟩ | ⟨hr, hq, hsame⟩ <;> rw [hr] at hs <;> cases hs
    · -- the compare-exchange has linked two sets
      have hne : c.src ≠ c.dst := fun he => hl.not_same h.ord (by rw [he])
      exact h.move hc (hl.grows h.ord) (hl.ordered h.ord) (h.callInv hc (x := .insert) hne) rfl h.oriented rfl
    · exact h.move hc (hq.grows h.ord) (hq.ordered h.ord) (h.callInv hc (x := .find) hsame) rfl h.oriented rfl

theorem insertStep_tidy (h : Tidy priority s) {c : PreInsert n} (hc : s.thr t = some c) {o : Side}
    (hs : insertStep priority s t o c = some s') : Tidy priority s' := by
  cases hpc : c.pc with
  | merge m => exact h.merge hc hpc hs
  | insert =>
    simp only [insertStep, hpc] at hs
    cases hs
    have hlt : c.src < c.dst := by
      have hcall := h.call t c hc
      rw [hpc] at hcall
      exact lt_of_le_of_ne hcall.1 hcall.2
    refine h.move hc (Grows.refl _) h.ord (h.callInv hc (x := .unlock) trivial) rfl (fun v w hw => ?_) rfl
    simp only at hw
    by_cases hv : v = c.src
    · subst hv
      rw [Function.update_self, Finset.mem_insert] at hw
      rcases hw with rfl | hw
      · exact hlt
      · exact h.oriented _ w hw
    · rw [Function.update_of_ne hv] at hw
      exact h.oriented v w hw
  | testValid =>
    simp only [insertStep, hpc] at hs
    split_ifs at hs <;> cases hs
    · exact h.goto hc (h.callInv hc (x := .lock) trivial) rfl rfl rfl rfl
    · exact h.goto hc of_none rfl rfl rfl rfl
  | lock =>
    simp only [insertStep, hpc] at hs
    split_ifs at hs
    cases hs
    exact h.goto hc (h.callInv hc (x := .merge (.loop c.src c.dst)) (MergePc.inv_start priority _ _ _)) rfl rfl rfl rfl
  | find =>
    simp only [insertStep, hpc] at hs
    split_ifs at hs <;> cases hs
    · exact h.goto hc (h.callInv hc (x := .clearValid) trivial) rfl rfl rfl rfl
    · exact h.goto hc (h.callInv hc (x := .unlock) trivial) rfl rfl rfl rfl
  | clearValid =>
    simp only [insertStep, hpc] at hs
    cases hs
    exact h.goto hc (h.callInv hc (x := .clearShared) trivial) rfl rfl rfl rfl
  | clearShared =>
    simp only [insertStep, hpc] at hs
    cases hs
    exact h.goto hc (h.callInv hc (x := .unlock) trivial) rfl rfl rfl rfl
  | unlock =>
    simp only [insertStep, hpc] at hs
    cases hs
    exact h.goto hc of_none rfl rfl rfl rfl

/-! ### Queries -/

/-- a step of a query, perhaps with a halving store -/
theorem Tidy.querying (h : Tidy priority s) (ha : ∀ t, s.thr t = none) {q : Fin n → Fin n}
    (hq : Quiet (rank priority) s.parent q) {x : QueryPc n T} (hx : x.Tidy priority q) :
    Tidy priority { s with parent := q, query := x } where
  ord := hq.ordered h.ord
  call t := by
    simp only [ha t]
    exact of_none
  oriented := h.oriented
  alone _ := ha
  query := hx

/-- the loop of a `ConnectedComponents` begins -/
theorem tidy_loop (priority : Fin n → ℕ) (p : Fin n → Fin n) (q : Query n T) (owner : Fin n → Fin T) :
    (QueryPc.loop q owner).Tidy priority p := by
  refine ⟨fun t x hx => (by cases hx), fun v => .inl ⟨owner v, .inl ?_⟩⟩
  simp

theorem querierStep_tidy (h : Tidy priority s) {o : Side} (hs : querierStep s o = some s') : Tidy priority s' := by
  have hq := h.query
  unfold querierStep at hs
  split at hs
  next a b hpc =>
    cases hs
    apply h.querying (h.alone (by rw [hpc]; rfl)) (Quiet.refl _ _)
    split_ifs <;> trivial
  next q _ hpc =>
    cases hs
    apply h.querying (h.alone (by rw [hpc]; rfl)) (Quiet.refl _ _)
    split_ifs <;> trivial
  next a b hpc =>
    cases hs
    apply h.querying (h.alone (by rw [hpc]; rfl)) (Quiet.refl _ _)
    exact ⟨FindPc.inv_start (rank priority) _ _, fun z' hz => by cases hz⟩
  next owner hpc =>
    cases hs
    exact h.querying (h.alone (by rw [hpc]; rfl)) (Quiet.refl _ _) (tidy_loop _ _ _ _)
  next owner hpc =>
    cases hs
    exact h.querying (h.alone (by rw [hpc]; rfl)) (Quiet.refl _ _) (tidy_loop _ _ _ _)
  next o' a b f hpc =>
    have ha := h.alone (by rw [hpc]; rfl)
    rw [hpc] at hq
    obtain ⟨hinv, hexact⟩ := hq
    obtain ⟨hquiet, hf⟩ := FindPc.step_spec h.ord hinv o
    rcases hst : f.step s.parent o with ⟨q, f' | r⟩ <;> rw [hst] at hs hquiet hf <;> cases hs
    · exact h.querying ha hquiet ⟨hf, FindPc.exact_step hexact o hst⟩
    · obtain ⟨rfl, hr⟩ := FindPc.root_of_finalLoad h.ord hinv hexact.finalLoad hst
      exact h.querying ha hquiet ⟨hr, FindPc.inv_start (rank priority) _ _, fun z' hz => by cases hz⟩
  next o' a b r f hpc =>
    have ha := h.alone (by rw [hpc]; rfl)
    rw [hpc] at hq
    obtain ⟨hr, hinv, hexact⟩ := hq
    obtain ⟨hquiet, hf⟩ := FindPc.step_spec h.ord hinv o
    rcases hst : f.step s.parent o with ⟨q, f' | r'⟩ <;> rw [hst] at hs hquiet hf <;> cases hs
    · exact h.querying ha hquiet ⟨hr.trans (hquiet.root_eq h.ord _).symm, hf, FindPc.exact_step hexact o hst⟩
    · exact h.querying ha hquiet trivial
  next => cases hs

/-- **What `point_query` returns** is whether the two vertices are in one set. -/
theorem Tidy.connected (h : Tidy priority s) {o : Side} (hs : querierStep s o = some s') {a : Answer n}
    (ha : s'.query = .answered a) : ∃ o' u v r f, s.query = .second o' u v r f ∧
      ∃ answer, a = .connected u v answer ∧ (answer = true ↔ Same s.parent u v) := by
  have hq := h.query
  unfold querierStep at hs
  split at hs
  next u v hpc =>
    cases hs
    simp only at ha
    split_ifs at ha
  next q _ hpc =>
    cases hs
    simp only at ha
    split_ifs at ha
  next u v hpc =>
    cases hs
    cases ha
  next owner hpc =>
    cases hs
    cases ha
  next owner hpc =>
    cases hs
    cases ha
  next o' u v f hpc =>
    split at hs <;> cases hs <;> cases ha
  next o' u v r f hpc =>
    rw [hpc] at hq
    obtain ⟨hr, hinv, hexact⟩ := hq
    rcases hst : f.step s.parent o with ⟨q, f' | r'⟩ <;> rw [hst] at hs <;> cases hs
    · cases ha
    · cases ha
      obtain ⟨rfl, hr'⟩ := FindPc.root_of_finalLoad h.ord hinv hexact.finalLoad hst
      refine ⟨o', u, v, r, f, hpc, _, rfl, ?_⟩
      rw [beq_iff_eq, hr, hr']
      cases o' with
      | left => exact Iff.rfl
      | right => exact eq_comm
  next => cases hs

theorem teamStep_tidy (h : Tidy priority s) {q : Query n T} {thr : Fin T → TeamThread n} {arr : Fin n → Fin n}
    (hq : s.query = .team q thr arr) {o : Side} (hs : teamStep s q thr arr t o = some s') : Tidy priority s' := by
  have ha := h.alone (by rw [hq]; rfl)
  have hteam := h.query
  rw [hq] at hteam
  obtain ⟨hfinds, hentries⟩ := hteam
  have hupd : ∀ {p' : Fin n → Fin n} {x : TeamThread n}, Grows s.parent p' →
      (∀ y ∈ x.cur, y.2.Inv (rank priority) p' y.1 ∧ y.2.Climbs (rank priority) p' y.1) →
      ∀ t', ∀ y ∈ (Function.update thr t x t').cur, y.2.Inv (rank priority) p' y.1 ∧ y.2.Climbs (rank priority) p' y.1 := by
    intro p' x hg hx
    refine Threads.forall_update (Q := fun _ (x : TeamThread n) =>
      ∀ y ∈ x.cur, y.2.Inv (rank priority) p' y.1 ∧ y.2.Climbs (rank priority) p' y.1) ?_ hx
    exact fun t' y hy => ⟨(hfinds t' y hy).1.mono hg, (hfinds t' y hy).2.mono hg⟩
  have hkeep : ∀ {p' : Fin n → Fin n}, Quiet (rank priority) s.parent p' → ∀ v, Same s.parent (arr v) v ∧
      (arr v = v → s.parent v = v) → Same p' (arr v) v ∧ (arr v = v → p' v = v) := by
    intro p' hquiet v hv
    refine ⟨(hquiet.same_iff h.ord _ _).2 hv.1, fun hself => ?_⟩
    have hroot := hquiet.root_eq h.ord v
    rw [root_of_fixed (hv.2 hself)] at hroot
    have hfixed := (hquiet.ordered h.ord).root_fixed v
    rwa [hroot] at hfixed
  cases hcur : (thr t).cur with
  | none =>
    cases htodo : (thr t).todo with
    | nil => simp [teamStep, hcur, htodo] at hs
    | cons v vs =>
      simp only [teamStep, hcur, htodo, Option.some.injEq] at hs
      subst hs
      refine h.querying ha (Quiet.refl _ _) ⟨hupd (Grows.refl _) fun y hy => ?_, fun w => ?_⟩
      · cases hy
        exact ⟨FindPc.inv_start (rank priority) _ _, FindPc.climbs_start (rank priority) _ _⟩
      · refine (hentries w).imp_left fun hw => has_update hw ?_
        rintro (hm | ⟨f, hf⟩)
        · rw [htodo] at hm
          rcases List.mem_cons.1 hm with rfl | hm
          · exact .inr ⟨_, rfl⟩
          · exact .inl hm
        · rw [hcur] at hf
          cases hf
  | some x =>
    obtain ⟨hinv, hclimbs⟩ := hfinds t x hcur
    obtain ⟨hquiet, hf⟩ := FindPc.step_spec h.ord hinv o
    have hclimb := FindPc.climbs_step h.ord hinv hclimbs o
    simp only [teamStep, hcur] at hs
    rcases hst : x.2.step s.parent o with ⟨p', f' | r⟩ <;> rw [hst] at hs hquiet hf hclimb <;> cases hs
    · refine h.querying ha hquiet ⟨hupd (hquiet.grows h.ord) fun y hy => ?_, fun w => ?_⟩
      · cases hy
        exact ⟨hf, hclimb.1⟩
      · refine (hentries w).imp (fun hw => has_update hw ?_) (hkeep hquiet w)
        rintro (hm | ⟨f, hf⟩)
        · exact .inl hm
        · rw [hcur] at hf
          cases hf
          exact .inr ⟨f', rfl⟩
    · -- the call returns: its vertex is done
      refine h.querying ha hquiet ⟨hupd (hquiet.grows h.ord) fun y hy => (by cases hy), fun w => ?_⟩
      by_cases hw : w = x.1
      · subst hw
        right
        rw [Function.update_self]
        refine ⟨hf, fun hr => ?_⟩
        subst hr
        have hfixed := FindPc.fixed_of_returned h.ord hclimbs hst
        have hroot := hquiet.root_eq h.ord x.1
        rw [root_of_fixed hfixed] at hroot
        have hroot' := (hquiet.ordered h.ord).root_fixed x.1
        rwa [hroot] at hroot'
      · rw [Function.update_of_ne hw]
        refine (hentries w).imp (fun hw' => has_update hw' ?_) (hkeep hquiet w)
        rintro (hm | ⟨f, hf⟩)
        · exact .inl hm
        · rw [hcur] at hf
          cases hf
          exact absurd rfl hw

/-- `pre_insert` is called -/
theorem Tidy.preInsert (h : Tidy priority s) {upd : Fin n × Fin n} (hs : step priority s (.preInsert t upd) = some s') :
    Tidy priority s' := by
  simp only [step] at hs
  split_ifs at hs
  cases hs
  refine ⟨h.ord, fun t' => ?_, h.oriented, fun hf => (by cases hf), trivial⟩
  refine Threads.forall_update (Q := fun _ => CallInv priority s.parent) h.call (fun c hc => ?_) t'
  cases hc
  exact ⟨min_le_max, trivial⟩

theorem Tidy.thread (h : Tidy priority s) {o : Side} (hs : step priority s (.thread t o) = some s') : Tidy priority s' := by
  simp only [step] at hs
  split at hs
  next => cases hs
  next c hc => exact insertStep_tidy h hc hs

/-- a query makes a step -/
theorem asks_tidy (h : Tidy priority s) {l : Label n T} (hl : l.Asks) (hs : step priority s l = some s') :
    Tidy priority s' := by
  cases l with
  | preInsert | thread | boruvka => exact hl.elim
  | query q =>
    simp only [step] at hs
    split_ifs at hs with hq
    cases hs
    exact h.querying hq.2 (Quiet.refl _ _) trivial
  | querier o => exact querierStep_tidy h hs
  | team t o =>
    simp only [step] at hs
    split at hs
    next q thr arr hq => exact teamStep_tidy h hq hs
    next => cases hs
  | join =>
    simp only [step] at hs
    split at hs
    next q thr arr hq =>
      split_ifs at hs
      cases hs
      exact h.querying (h.alone (by rw [hq]; rfl)) (Quiet.refl _ _) trivial
    next => cases hs

/-- what `boruvka_emulation` leaves comes in -/
theorem tidy_restored (ha : ∀ t, s.thr t = none) {p : Fin n → Fin n} {forest : Fin n → Finset (Fin n)}
    (ho : Ordered (rank priority) p) (horiented : ∀ v, ∀ w ∈ forest v, v < w) {x : QueryPc n T}
    (hx : x.Tidy priority p) {dsuValid sharedDsuValid : Bool} : Tidy priority { s with
      parent := p
      spanningForest := forest
      query := x
      dsuValid := dsuValid
      sharedDsuValid := sharedDsuValid } where
  ord := ho
  call t := by
    simp only [ha t]
    exact of_none
  oriented := horiented
  alone _ := ha
  query := hx

end Eager

/-! ## Sessions -/

namespace Session

open Boruvka Dsu Eager

variable {P : Params} {n T B : ℕ} {priority : Fin n → ℕ} {s s' : St P n T B}

structure Tidy (priority : Fin n → ℕ) (s : St P n T B) : Prop where
  eager : Eager.Tidy priority s.stream.eager
  idle : ∀ t, (s.stream.readers t).pc.inserting = false → s.stream.eager.thr t = none
  asked : s.stream.eager.query.free = false → ∃ c, s.stream.driver = .ready c
  boruvka : ∀ x ∈ s.boruvka, (∃ q, s.stream.eager.query = .boruvka q) ∧ x.2.phase.Tidy priority

theorem Tidy.no_boruvka (h : Tidy priority s) (hq : ∀ q, s.stream.eager.query ≠ .boruvka q) : s.boruvka = none := by
  cases hb : s.boruvka with
  | none => rfl
  | some x =>
    obtain ⟨⟨q, hx⟩, -⟩ := h.boruvka x hb
    exact absurd hx (hq q)

/-- no query runs, and none is asked -/
theorem tidy_of_free (hf : s.stream.eager.query.free = true) (heager : Eager.Tidy priority s.stream.eager)
    (hidle : ∀ t, (s.stream.readers t).pc.inserting = false → s.stream.eager.thr t = none) (hb : s.boruvka = none) :
    Tidy priority s := by
  refine ⟨heager, hidle, fun hf' => ?_, fun x hx => ?_⟩
  · rw [hf] at hf'
    cases hf'
  · rw [hb] at hx
    cases hx

/-- a stream thread that goes on where it is not in `pre_insert` -/
theorem idle_update {readers : Fin T → Stream.Reader n} {thr : Fin T → Option (PreInsert n)}
    (h : ∀ t, (readers t).pc.inserting = false → thr t = none) {t : Fin T} (ht : (readers t).pc.inserting = false)
    (r : Stream.Reader n) : ∀ t', (Function.update readers t r t').pc.inserting = false → thr t' = none := by
  intro t' ht'
  by_cases heq : t' = t
  · exact heq ▸ h t ht
  · rw [Function.update_of_ne heq] at ht'
    exact h t' ht'

theorem readerStep_tidy (h : Tidy priority s) (hf : s.stream.eager.query.free = true) {t : Fin T} {o : Side}
    {stream : Stream.St P n T} (hs : Stream.readerStep priority s.stream t o = some stream) :
    Tidy priority { s with stream := stream } := by
  have hnone := h.no_boruvka (free_ne_boruvka hf)
  cases hpc : (s.stream.readers t).pc with
  | next =>
    cases harr : (s.stream.readers t).updateArray with
    | nil => simp [Stream.readerStep, hpc, harr] at hs
    | cons e rest =>
      simp only [Stream.readerStep, hpc, harr, Option.map_eq_some_iff] at hs
      obtain ⟨eager, he, rfl⟩ := hs
      have heager := h.eager.preInsert he
      simp only [Eager.step] at he
      split_ifs at he
      cases he
      refine tidy_of_free rfl heager (fun t' ht' => ?_) hnone
      simp only at ht' ⊢
      by_cases heq : t' = t
      · subst heq
        rw [Function.update_self] at ht'
        cases ht'
      · rw [Function.update_of_ne heq] at ht' ⊢
        exact h.idle t' ht'
  | preInsert e =>
    simp only [Stream.readerStep, hpc] at hs
    split_ifs at hs with hthr
    · cases hs
      refine tidy_of_free hf h.eager (fun t' ht' => ?_) hnone
      simp only [Stream.St.goto] at ht' ⊢
      by_cases heq : t' = t
      · exact heq ▸ hthr
      · rw [Function.update_of_ne heq] at ht'
        exact h.idle t' ht'
    · obtain ⟨eager, he, rfl⟩ := Option.map_eq_some_iff.1 hs
      have heager := h.eager.thread he
      simp only [Eager.step] at he
      split at he
      next hn => exact absurd hn hthr
      next c hc =>
        refine tidy_of_free ((insertStep_frame he).1 ▸ hf) heager (fun t' ht' => ?_) hnone
        simp only at ht' ⊢
        have hne : t' ≠ t := by
          rintro rfl
          rw [hpc] at ht'
          cases ht'
        rw [Stream.insertStep_thr he hne]
        exact h.idle t' ht'
  | insertSrc e =>
    simp only [Stream.readerStep, hpc, Option.some.injEq] at hs
    subst hs
    exact tidy_of_free hf h.eager (idle_update h.idle (by rw [hpc]; rfl) _) hnone
  | insertDst e =>
    simp only [Stream.readerStep, hpc, Option.some.injEq] at hs
    subst hs
    exact tidy_of_free hf h.eager (idle_update h.idle (by rw [hpc]; rfl) _) hnone
  | returned => simp [Stream.readerStep, hpc] at hs

/-- while a query runs, only workers move -/
theorem streamStep_busy (hret : ∀ t, (s.stream.readers t).pc = .returned) {c : Bool} (hr : s.stream.driver = .ready c)
    {l : Stream.Label n T} (hs : streamStep priority s l = some s') : s'.stream.eager = s.stream.eager ∧
      s'.stream.readers = s.stream.readers ∧ s'.stream.driver = s.stream.driver ∧ s'.boruvka = s.boruvka ∧
        s'.history = s.history := by
  obtain ⟨stream, he, rfl⟩ := Option.map_eq_some_iff.1 hs
  cases l with
  | getUpdateBuffer t k => simp [Stream.step, hret t] at he
  | reader t o => simp [Stream.step, Stream.readerStep, hret t] at he
  | driver => simp [Stream.step, hr] at he
  | batch src dsts =>
    simp only [Stream.step] at he
    split_ifs at he
    cases he
    simp only
    split_ifs <;> exact ⟨rfl, rfl, rfl, rfl, rfl⟩

theorem streamStep_tidy {base : ℕ} (haccount : Account base s) (h : Tidy priority s) {l : Stream.Label n T}
    (hs : streamStep priority s l = some s') : Tidy priority s' := by
  by_cases hf : s.stream.eager.query.free = true
  · have hnone := h.no_boruvka (free_ne_boruvka hf)
    obtain ⟨stream, he, rfl⟩ := Option.map_eq_some_iff.1 hs
    cases l with
    | reader t o => exact readerStep_tidy h hf he
    | getUpdateBuffer t k =>
      simp only [Stream.step] at he
      split_ifs at he with hnext hnil hk <;> cases he <;>
        exact tidy_of_free hf h.eager (idle_update h.idle (by rw [hnext.1]; rfl) _) hnone
    | batch src dsts =>
      simp only [Stream.step] at he
      split_ifs at he
      cases he
      simp only
      split_ifs <;> exact tidy_of_free hf h.eager h.idle hnone
    | driver =>
      simp only [Stream.step] at he
      split at he <;> (try split_ifs at he) <;> cases he <;> exact tidy_of_free hf h.eager h.idle hnone
  · obtain ⟨c, hc⟩ := h.asked (by simpa using hf)
    have hret := haccount.joined (by rw [hc]; simp)
    obtain ⟨heager, hreaders, hdriver, hboruvka, -⟩ := streamStep_busy hret hc hs
    refine ⟨heager ▸ h.eager, ?_, ?_, ?_⟩
    · rw [heager, hreaders]
      exact h.idle
    · rw [heager, hdriver]
      exact h.asked
    · rw [heager, hboruvka]
      exact h.boruvka

theorem eagerStep_tidy (h : Tidy priority s) {l : Eager.Label n T} (hl : l.Asks)
    (hready : ∀ q, l = .query q → ∃ c, s.stream.driver = .ready c) (hs : eagerStep priority s l = some s') :
    Tidy priority s' := by
  obtain ⟨eager, he, rfl⟩ := Option.map_eq_some_iff.1 hs
  have hdriver : ∃ c, s.stream.driver = .ready c := by
    rcases busy_of_asks hl he with ⟨q, hq⟩ | hf
    · exact hready q hq
    · exact h.asked hf
  have hnone : s.boruvka = none := by
    apply h.no_boruvka
    intro q hq
    rw [not_asks hq hl] at he
    cases he
  refine ⟨asks_tidy h.eager hl he, fun t ht => ?_, fun _ => hdriver, fun x hx => ?_⟩
  · exact (congrFun (asks_frame hl he).2.1 t).trans (h.idle t ht)
  · rw [hnone] at hx
    cases hx

/-- `boruvka_emulation` is over -/
theorem finish_tidy (h : Tidy priority s) {x : (Fin n → Fin B) × Emulation.St P n B} (hx : s.boruvka = some x)
    (hs : finish priority s x.2.phase = some s') : Tidy priority s' := by
  obtain ⟨⟨q, hq⟩, htidy⟩ := h.boruvka x hx
  have ha := h.eager.alone (by rw [hq]; rfl)
  unfold finish at hs
  split at hs
  next k w hphase =>
    obtain ⟨eager, he, rfl⟩ := Option.map_eq_some_iff.1 hs
    rw [hphase] at htidy
    simp only [Eager.step, hq, Option.some.injEq] at he
    subst he
    exact ⟨tidy_restored ha htidy.ord htidy.below (x := .ready q) trivial, h.idle, fun _ => h.asked (by rw [hq]; rfl),
      fun x hx => by cases hx⟩
  next e w hphase =>
    cases hs
    rw [hphase] at htidy
    exact tidy_of_free rfl (tidy_restored ha htidy.ord htidy.below (x := .idle) trivial) h.idle rfl
  next => cases hs
  next => cases hs

theorem step_tidy {base : ℕ} (haccount : Account base s) (h : Tidy priority s) {l : Label n T B}
    (hs : step priority s l = some s') : Tidy priority s' := by
  unfold step at hs
  split_ifs at hs
  cases l with
  | processStreamUntil us =>
    simp only [act] at hs
    split_ifs at hs with hb
    cases hs
    have hret := haccount.joined (not_processStream hb.1)
    exact tidy_of_free hb.2 h.eager (fun t _ => h.idle t (by rw [hret t]; rfl)) (h.no_boruvka (free_ne_boruvka hb.2))
  | prepQuery =>
    simp only [act] at hs
    split_ifs at hs with hb
    cases hs
    exact tidy_of_free hb.2 h.eager h.idle (h.no_boruvka (free_ne_boruvka hb.2))
  | stream l => exact streamStep_tidy haccount h hs
  | query q =>
    simp only [act] at hs
    split at hs
    next c hready => exact eagerStep_tidy h (l := .query q) trivial (fun q' _ => ⟨c, hready⟩) hs
    all_goals cases hs
  | querier o => exact eagerStep_tidy h (l := .querier o) trivial (fun q hq => by cases hq) hs
  | team t o => exact eagerStep_tidy h (l := .team t o) trivial (fun q hq => by cases hq) hs
  | join => exact eagerStep_tidy h (l := .join) trivial (fun q hq => by cases hq) hs
  | boruvka owner =>
    simp only [act] at hs
    split at hs
    next q hq hnone =>
      cases hs
      refine ⟨h.eager, h.idle, h.asked, fun x hx => ?_⟩
      cases hx
      exact ⟨⟨q, hq⟩, Emulation.tidy_start owner priority _⟩
    next => cases hs
  | emulate l =>
    simp only [act] at hs
    split at hs
    next owner e hx =>
      obtain ⟨e', he, rfl⟩ := Option.map_eq_some_iff.1 hs
      obtain ⟨hq, htidy⟩ := h.boruvka _ hx
      refine ⟨h.eager, h.idle, h.asked, fun x hx' => ?_⟩
      cases hx'
      exact ⟨hq, Emulation.tidy_step htidy he⟩
    next => cases hs
  | finish =>
    simp only [act] at hs
    split at hs
    next owner e hx => exact finish_tidy h hx hs
    next => cases hs

theorem tidy_startOf {eager : Eager.St n T} (heager : Eager.Tidy priority eager) (hq : eager.query = .idle)
    (hthr : ∀ t, eager.thr t = none) (sketches : Fin n → Sketch P)
    (history : List (Service.Event (Fin n × Fin n) (Answer n))) :
    Tidy priority (startOf eager sketches history : St P n T B) :=
  tidy_of_free (by simp only [startOf, hq]; rfl) heager (fun t _ => hthr t) rfl

end Session

end GraphStreamingCC
