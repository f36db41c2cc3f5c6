/-
With `VERIFY_SAMPLES_F` no wrong answer comes out.

Nothing is assumed of the hash, of the schedules or of the last loads of `find_root`: `boruvka_emulation` may leave anything
that `Session.Tidy` allows. What is accepted is right:
- `ConnectedComponents` and `SpanningForest` are compared with the matrix (`correct_of_accepted`);
- `point_query` reads the union-find itself. The entries that its check accepts name the sets by their roots, and then the
  sets are the components (`settled_of_accepted`); up to the answer only the query itself writes to the union-find, and it
  halves paths.
-/
import GraphStreamingCC.Session.Tidy
import GraphStreamingCC.Session.Verifiers

namespace GraphStreamingCC

open Boruvka Dsu Eager ParentForest Parity Runs Service SpanningForest

variable {P : Params} {n T B : ℕ} {priority : Fin n → ℕ}

namespace Eager

variable {s s' : St n T}

/-- `point_query` compares the roots of its arguments -/
def QueryPc.Comparing : QueryPc n T → Prop
  | .first .. | .second .. => True
  | .idle | .testValid _ | .boruvka _ | .ready _ | .team .. | .answered _ => False

/-- the next step of the query reads the union-find -/
def QueryPc.Reads : QueryPc n T → Prop
  | .ready _ | .first .. | .second .. => True
  | .idle | .testValid _ | .boruvka _ | .team .. | .answered _ => False

theorem not_reads_of_free {pc : QueryPc n T} (h : pc.free = true) : ¬ pc.Reads ∧ ¬ pc.Comparing := by
  cases pc with
  | idle | answered => exact ⟨id, id⟩
  | testValid | boruvka | ready | team | first | second => cases h

theorem reads_busy {pc : QueryPc n T} (h : pc.Reads) : pc.free = false := by
  cases pc with
  | ready | first | second => rfl
  | idle | testValid | boruvka | team | answered => exact h.elim

/-- the querying thread leaves the sets alone, and begins to compare only when `point_query` is ready -/
theorem querier_same (h : Tidy priority s) {o : Side} (hs : querierStep s o = some s') :
    (∀ u v, Same s'.parent u v ↔ Same s.parent u v) ∧
      (s'.query.Comparing → s.query.Comparing ∨ ∃ a b, s.query = .ready (.pointQuery a b)) := by
  have hq := h.query
  unfold querierStep at hs
  split at hs
  next a b hpc =>
    cases hs
    refine ⟨fun u v => Iff.rfl, fun hc => ?_⟩
    simp only at hc
    split_ifs at hc <;> exact hc.elim
  next q _ hpc =>
    cases hs
    refine ⟨fun u v => Iff.rfl, fun hc => ?_⟩
    simp only at hc
    split_ifs at hc <;> exact hc.elim
  next a b hpc =>
    cases hs
    exact ⟨fun u v => Iff.rfl, fun _ => .inr ⟨a, b, hpc⟩⟩
  next owner hpc =>
    cases hs
    exact ⟨fun u v => Iff.rfl, fun hc => hc.elim⟩
  next owner hpc =>
    cases hs
    exact ⟨fun u v => Iff.rfl, fun hc => hc.elim⟩
  next o' a b f hpc =>
    rw [hpc] at hq ⊢
    have hquiet := (FindPc.step_spec h.ord hq.1 o).1
    rcases hst : f.step s.parent o with ⟨q, f' | r⟩ <;> rw [hst] at hs hquiet <;> cases hs <;>
      exact ⟨hquiet.same_iff h.ord, fun _ => .inl trivial⟩
  next o' a b r f hpc =>
    rw [hpc] at hq ⊢
    have hquiet := (FindPc.step_spec h.ord hq.2.1 o).1
    rcases hst : f.step s.parent o with ⟨q, f' | r'⟩ <;> rw [hst] at hs hquiet <;> cases hs <;>
      exact ⟨hquiet.same_iff h.ord, fun _ => .inl trivial⟩
  next => cases hs

/-- the team changes the parents and the query only -/
theorem teamStep_eq {q : Query n T} {thr : Fin T → TeamThread n} {arr : Fin n → Fin n} {t : Fin T} {o : Side}
    (hs : teamStep s q thr arr t o = some s') :
    s' = { s with parent := s'.parent, query := s'.query } ∧ ∃ thr' arr', s'.query = .team q thr' arr' := by
  unfold teamStep at hs
  split at hs
  · cases hs
  · cases hs
    exact ⟨rfl, _, _, rfl⟩
  · split at hs <;> cases hs <;> exact ⟨rfl, _, _, rfl⟩

/-- when the team has finished, each vertex is named within its set, and only a root is its own name -/
theorem Tidy.joined (h : Tidy priority s) {q : Query n T} {thr : Fin T → TeamThread n} {arr : Fin n → Fin n}
    (hq : s.query = .team q thr arr) (hs : step priority s .join = some s') :
    (∀ v, Same s.parent (arr v) v ∧ (arr v = v → s.parent v = v)) ∧ s' = { s with query := .answered (answerOf s arr q) } := by
  have hteam := h.query
  rw [hq] at hteam
  simp only [step, hq] at hs
  split_ifs at hs with hdone
  cases hs
  refine ⟨fun v => (hteam.2 v).resolve_left ?_, rfl⟩
  rintro ⟨t, hm | ⟨f, hf⟩⟩
  · rw [(hdone t).1] at hm
    cases hm
  · rw [(hdone t).2] at hf
    cases hf

end Eager

namespace Session

variable {s s' : St P n T B}

/-- what a step that is not one of the querying thread does to a query that reads, or that compares afterwards -/
theorem step_reads {base : ℕ} (haccount : Account base s) (h : Tidy priority s) {l : Label n T B} (hl : ∀ o, l ≠ .querier o)
    (hs : step priority s l = some s') : s'.stream.eager = s.stream.eager ∧ s'.history = s.history ∨
      ¬ s.stream.eager.query.Reads ∧ ¬ s'.stream.eager.query.Comparing := by
  unfold step at hs
  split_ifs at hs
  cases l with
  | querier o => exact absurd rfl (hl o)
  | processStreamUntil us =>
    simp only [act] at hs
    split_ifs at hs with hb
    cases hs
    exact .inr (not_reads_of_free hb.2)
  | prepQuery =>
    simp only [act] at hs
    split_ifs at hs with hb
    cases hs
    exact .inr (not_reads_of_free hb.2)
  | stream l =>
    by_cases hf : s.stream.eager.query.free = true
    · refine .inr ⟨(not_reads_of_free hf).1, ?_⟩
      obtain ⟨stream, he, rfl⟩ := Option.map_eq_some_iff.1 hs
      have hfree : stream.eager.query.free = true := by
        rcases Stream.step_eager he with heager | ⟨t, e, heager⟩ | ⟨t, o, heager⟩
        · rw [heager]
          exact hf
        · simp only [Eager.step] at heager
          split_ifs at heager
          rw [← Option.some.inj heager]
          rfl
        · simp only [Eager.step] at heager
          split at heager
          · cases heager
          · rw [(insertStep_frame heager).1]
            exact hf
      cases l with
      | getUpdateBuffer | reader | driver => exact (not_reads_of_free hfree).2
      | batch src dsts =>
        simp only
        split_ifs
        · exact (not_reads_of_free hf).2
        · exact (not_reads_of_free hfree).2
    · obtain ⟨c, hc⟩ := h.asked (by simpa using hf)
      obtain ⟨heager, -, -, -, hhistory⟩ := streamStep_busy (haccount.joined (by rw [hc]; simp)) hc hs
      exact .inl ⟨heager, hhistory⟩
  | query q =>
    simp only [act] at hs
    split at hs
    next =>
      obtain ⟨eager, he, rfl⟩ := Option.map_eq_some_iff.1 hs
      simp only [Eager.step] at he
      split_ifs at he with hq
      cases he
      exact .inr ⟨(not_reads_of_free hq.1).1, id⟩
    all_goals cases hs
  | team t o =>
    obtain ⟨eager, he, rfl⟩ := Option.map_eq_some_iff.1 hs
    simp only [Eager.step] at he
    split at he
    next q thr arr hq =>
      obtain ⟨-, thr', arr', hq'⟩ := teamStep_eq he
      rw [hq]
      exact .inr ⟨id, by rw [hq']; exact id⟩
    next => cases he
  | join =>
    obtain ⟨eager, he, rfl⟩ := Option.map_eq_some_iff.1 hs
    simp only [Eager.step] at he
    split at he
    next q thr arr hq =>
      split_ifs at he
      cases he
      rw [hq]
      exact .inr ⟨id, id⟩
    next => cases he
  | boruvka owner =>
    simp only [act] at hs
    split at hs <;> cases hs
    exact .inl ⟨rfl, rfl⟩
  | emulate l =>
    simp only [act] at hs
    split at hs
    · obtain ⟨e, -, rfl⟩ := Option.map_eq_some_iff.1 hs
      exact .inl ⟨rfl, rfl⟩
    · cases hs
  | finish =>
    simp only [act] at hs
    split at hs
    next owner e hx =>
      obtain ⟨⟨q, hq⟩, -⟩ := h.boruvka _ hx
      unfold finish at hs
      split at hs
      · obtain ⟨eager, he, rfl⟩ := Option.map_eq_some_iff.1 hs
        simp only [Eager.step, hq, Option.some.injEq] at he
        subst he
        rw [hq]
        exact .inr ⟨id, id⟩
      · cases hs
        rw [hq]
        exact .inr ⟨id, id⟩
      all_goals cases hs
    next => cases hs

/-- an answer comes from the querying thread, when it has compared, or with the end of a team -/
theorem step_right (htidy : Tidy priority s) (h : Right Correct s.history) {l : Label n T B}
    (hconnected : ∀ o, l = .querier o → s.stream.eager.query.Comparing → ∀ u v,
      Same s.stream.eager.parent u v ↔ (oddGraph (updates s.history)).Reachable u v)
    (hteam : ∀ q thr arr, l = .join → s.stream.eager.query = .team q thr arr →
      Correct (updates s.history) (answerOf s.stream.eager arr q))
    (hs : step priority s l = some s') : Right Correct s'.history := by
  unfold step at hs
  split_ifs at hs
  cases l with
  | processStreamUntil us =>
    simp only [act] at hs
    split_ifs at hs
    cases hs
    exact h.cons fun a ha => by cases ha
  | prepQuery =>
    simp only [act] at hs
    split_ifs at hs
    cases hs
    exact h
  | stream l =>
    obtain ⟨stream, he, rfl⟩ := Option.map_eq_some_iff.1 hs
    cases l with
    | getUpdateBuffer | reader | driver => exact h
    | batch src dsts =>
      simp only
      split_ifs <;> exact h
  | query q =>
    simp only [act] at hs
    split at hs
    next =>
      obtain ⟨eager, he, rfl⟩ := Option.map_eq_some_iff.1 hs
      simp only [Eager.step] at he
      split_ifs at he
      cases he
      exact h
    all_goals cases hs
  | querier o =>
    obtain ⟨eager, he, rfl⟩ := Option.map_eq_some_iff.1 hs
    apply right_record h
    intro a ha
    obtain ⟨o', u, v, r, f, hq, answer, rfl, hanswer⟩ := htidy.eager.connected he ha
    rw [Correct, Answer.Correct, hanswer]
    apply hconnected o rfl
    rw [hq]
    trivial
  | team t o =>
    obtain ⟨eager, he, rfl⟩ := Option.map_eq_some_iff.1 hs
    apply right_record h
    intro a ha
    simp only [Eager.step] at he
    split at he
    next q thr arr hq =>
      obtain ⟨-, thr', arr', hq'⟩ := teamStep_eq he
      rw [hq'] at ha
      cases ha
    next => cases he
  | join =>
    obtain ⟨eager, he, rfl⟩ := Option.map_eq_some_iff.1 hs
    apply right_record h
    intro a ha
    simp only [Eager.step] at he
    split at he
    next q thr arr hq =>
      split_ifs at he
      cases he
      cases ha
      exact hteam q thr arr rfl hq
    next => cases he
  | boruvka owner =>
    simp only [act] at hs
    split at hs <;> cases hs
    exact h
  | emulate l =>
    simp only [act] at hs
    split at hs
    · obtain ⟨e, -, rfl⟩ := Option.map_eq_some_iff.1 hs
      exact h
    · cases hs
  | finish =>
    simp only [act] at hs
    split at hs
    next owner e hx =>
      unfold finish at hs
      split at hs
      · obtain ⟨eager, he, rfl⟩ := Option.map_eq_some_iff.1 hs
        exact h
      · cases hs
        exact h.cons fun a ha => by cases ha
      all_goals cases hs
    next => cases hs

end Session

namespace Checked

open GraphVerifier

variable {c c' : St P n T B}

/-! ## What is accepted -/

theorem correct_of_accepted {g : GraphVerifier n} {us : List (Fin n × Fin n)} (hg : g.Holds us) {u : Unspecified n}
    {s : Eager.St n T} (henum : Enumerates u.order s.spanningForest) (horiented : ∀ v, ∀ w ∈ s.spanningForest v, v < w)
    {parentArr : Fin n → Fin n} {q : Query n T} (hok : (St.verifyAnswer u parentArr q g).2 = .ok ()) :
    Session.Correct us (answerOf s parentArr q) := by
  have hnext := hg.verifyConnectedComponents (countFixed parentArr)
  unfold St.verifyAnswer at hok
  rcases hv : g.verifyConnectedComponents (countFixed parentArr) with ⟨g', x | ⟨⟩⟩ <;> rw [hv] at hok hnext
  · cases q <;> cases hok
  · have haccepted : (g.verifyConnectedComponents (countFixed parentArr)).2 = .ok () := by rw [hv]
    have hcomponents := hg.components_of_accepted haccepted
    cases q with
    | connectedComponents owner => exact hcomponents
    | pointQuery a b => exact hcomponents
    | calcSpanningForest owner => exact ⟨(hnext.accepted_forest_iff u.priority henum horiented).1 hok, horiented⟩

/-- the sets of the union-find are the components of the graph -/
def Settled (c : St P n T B) : Prop :=
  ∀ u v, Same c.session.stream.eager.parent u v ↔ (oddGraph (updates c.session.history)).Reachable u v

theorem settled_of_accepted {g : GraphVerifier n} (hg : g.Holds (updates c.session.history)) {parentArr : Fin n → Fin n}
    (hentries : ∀ v, Same c.session.stream.eager.parent (parentArr v) v ∧
      (parentArr v = v → c.session.stream.eager.parent v = v))
    (hok : (g.verifyConnectedComponents (countFixed parentArr)).2 = .ok ()) : Settled c := by
  obtain ⟨hnames, hcount⟩ := hg.components_of_accepted hok
  exact same_iff_of_named hnames hcount (fun v => (hentries v).1) fun v => (hentries v).2

/-! ## The invariant -/

structure Trusted (priority : Fin n → ℕ) (c : St P n T B) : Prop where
  verifiers : Verifiers c
  tidy : Session.Tidy priority c.session
  check : ∀ q ∈ c.check, (∃ a b, c.session.stream.eager.query = .ready (.pointQuery a b)) ∧
    Eager.Tidy priority (c.checking q)
  settled : (∃ a, c.check = some (.answered a)) ∨ c.session.stream.eager.query.Comparing → Settled c
  right : Right Session.Correct c.session.history

theorem keep_session (c : St P n T B) (s : Session.St P n T B) (u : Unspecified n) (l : Session.Label n T B) :
    (c.keep s u l).session = s := by
  unfold St.keep
  split <;> (try split) <;> rfl

/-- the querying thread goes on behind its check -/
theorem keep_check (c : St P n T B) (s : Session.St P n T B) (u : Unspecified n) (l : Session.Label n T B) :
    (∃ o, l = .querier o) ∧ (c.keep s u l).check = none ∨ (∀ o, l ≠ .querier o) ∧ (c.keep s u l).check = c.check := by
  cases l with
  | querier o => exact .inl ⟨⟨o, rfl⟩, rfl⟩
  | processStreamUntil | prepQuery | query | team | join | boruvka | emulate | finish =>
    exact .inr ⟨fun o ho => (by cases ho), rfl⟩
  | stream l =>
    refine .inr ⟨fun o ho => (by cases ho), ?_⟩
    cases l with
    | batch => rfl
    | getUpdateBuffer | reader | driver =>
      simp only [St.keep]
      split <;> rfl

/-- the session goes on -/
theorem Trusted.session (h : Trusted priority c) {l : Session.Label n T B} {s : Session.St P n T B}
    (hwaits : c.waits l = false) (hs : Session.step priority c.session l = some s) (hverifiers : Verifiers c')
    (hsession : c'.session = s) (hcheck : (∃ o, l = .querier o) ∧ c'.check = none ∨ (∀ o, l ≠ .querier o) ∧ c'.check = c.check)
    (hteam : ∀ q thr arr, l = .join → c.session.stream.eager.query = .team q thr arr →
      Session.Correct (updates c.session.history) (answerOf c.session.stream.eager arr q)) : Trusted priority c' := by
  subst hsession
  have htidy := Session.step_tidy h.verifiers.account h.tidy hs
  have hright := Session.step_right h.tidy h.right (fun o _ hc => h.settled (.inr hc)) hteam hs
  rcases hcheck with ⟨⟨o, rfl⟩, hcheck⟩ | ⟨hl, hcheck⟩
  · refine ⟨hverifiers, htidy, fun q hq => ?_, fun hcase => ?_, hright⟩
    · rw [hcheck] at hq
      cases hq
    · rcases hcase with ⟨a, ha⟩ | hcomparing
      · rw [hcheck] at ha
        cases ha
      · unfold Session.step at hs
        split_ifs at hs
        obtain ⟨eager, he, hs⟩ := Option.map_eq_some_iff.1 hs
        rw [← hs] at hcomparing
        obtain ⟨hsame, hbefore⟩ := querier_same h.tidy.eager he
        have hsettled : Settled c := by
          apply h.settled
          rcases hbefore hcomparing with hc | ⟨a, b, hready⟩
          · exact .inr hc
          · -- `point_query` has waited for its check
            simp only [St.waits, hready] at hwaits
            cases hc : c.check with
            | none =>
              rw [hc] at hwaits
              cases hwaits
            | some q =>
              rw [hc] at hwaits
              cases q with
              | answered a => exact .inl ⟨a, rfl⟩
              | idle | testValid | boruvka | ready | team | first | second => cases hwaits
        intro u v
        rw [← hs]
        simp only [Session.updates_record]
        rw [hsame]
        exact hsettled u v
  · rcases Session.step_reads h.verifiers.account h.tidy hl hs with ⟨heager, hhistory⟩ | ⟨hreads, hcomparing⟩
    · refine ⟨hverifiers, htidy, ?_, ?_, hright⟩
      · simp only [hcheck, St.checking, heager]
        exact h.check
      · rw [hcheck, heager, Settled, heager, hhistory]
        exact h.settled
    · have hnone : c.check = none := by
        cases hc : c.check with
        | none => rfl
        | some q =>
          obtain ⟨⟨a, b, hready⟩, -⟩ := h.check q hc
          rw [hready] at hreads
          exact absurd trivial hreads
      rw [hnone] at hcheck
      refine ⟨hverifiers, htidy, fun q hq => ?_, fun hcase => ?_, hright⟩
      · rw [hcheck] at hq
        cases hq
      · rcases hcase with ⟨a, ha⟩ | hc
        · rw [hcheck] at ha
          cases ha
        · exact absurd hc hcomparing

/-- a step that ends with an exception -/
theorem Trusted.alarmed (h : Trusted priority c) (hverifiers : Verifiers c') (hsession : c'.session = c.session)
    (hcheck : c'.check = c.check) : Trusted priority c' := by
  refine ⟨hverifiers, hsession ▸ h.tidy, ?_, ?_, hsession ▸ h.right⟩
  · simp only [hcheck, St.checking, hsession]
    exact h.check
  · rw [hcheck, Settled, hsession]
    exact h.settled

theorem step_trusted (hT : 0 < T) (h : Trusted priority c) {l : Label n T B} (hs : step priority c l = some c') :
    Trusted priority c' := by
  have hverifiers := step_verifiers hT h.verifiers hs
  cases l with
  | session l u =>
    obtain ⟨-, henum, hwaits, s, hstep, hcase⟩ := session_cases hs
    rcases hcase with ⟨hasked, rfl⟩ | ⟨check, g, hcheck, hg, ⟨hok, rfl⟩ | ⟨x, -, rfl⟩⟩
    · refine h.session hwaits hstep hverifiers (keep_session c s u l) (keep_check c s u l) fun q thr arr hl hq => ?_
      subst hl
      simp only [St.asked, hq] at hasked
      cases hasked
    · refine h.session hwaits hstep hverifiers (keep_session c s u l) (keep_check c s u l) fun q thr arr hl hq => ?_
      subst hl
      simp only [St.asked, hq, Option.some.injEq] at hcheck
      subst hcheck
      have hready : c.session.stream.driver ≠ .processStream := by
        obtain ⟨cached, hc⟩ := h.tidy.asked (by rw [hq]; rfl)
        rw [hc]
        simp
      exact correct_of_accepted (h.verifiers.given hready g hg) henum h.tidy.eager.oriented hok
    · exact h.alarmed hverifiers rfl rfl
  | checkBegin owner =>
    obtain ⟨-, ⟨a, b, hready⟩, -, rfl⟩ := checkBegin_cases hs
    have ha := h.tidy.eager.alone (by rw [hready]; rfl)
    refine ⟨hverifiers, h.tidy, fun q hq => ?_, fun hcase => ?_, h.right⟩
    · cases hq
      exact ⟨⟨a, b, hready⟩, h.tidy.eager.querying ha (Quiet.refl _ _) (tidy_loop _ _ _ _)⟩
    · rcases hcase with ⟨x, hx⟩ | hc
      · cases hx
      · rw [hready] at hc
        exact hc.elim
  | checkTeam t o =>
    obtain ⟨-, q, eager, hq, he, rfl⟩ := checkTeam_cases hs
    obtain ⟨⟨a, b, hready⟩, htidy⟩ := h.check q hq
    have ha := h.tidy.eager.alone (by rw [hready]; rfl)
    have htidy' := asks_tidy (l := .team t o) htidy trivial he
    simp only [Eager.step, St.checking] at he
    split at he
    next q' thr arr hq' =>
      obtain ⟨heq, thr', arr', hteam⟩ := teamStep_eq he
      have hsession : Eager.Tidy priority { c.session.stream.eager with parent := eager.parent } := by
        rw [heq] at htidy'
        have hback := htidy'.querying ha (Quiet.refl _ _) (x := .ready (.pointQuery a b)) trivial
        rw [← hready] at hback
        exact hback
      refine ⟨hverifiers, ⟨hsession, h.tidy.idle, h.tidy.asked, h.tidy.boruvka⟩, fun q hq => ?_, fun hcase => ?_, h.right⟩
      · cases hq
        refine ⟨⟨a, b, hready⟩, ?_⟩
        rw [heq] at htidy'
        exact htidy'
      · rcases hcase with ⟨x, hx⟩ | hc
        · rw [hteam] at hx
          cases hx
        · have hc' : c.session.stream.eager.query.Comparing := hc
          rw [hready] at hc'
          exact hc'.elim
    next => cases he
  | checkJoin =>
    obtain ⟨-, q, thr, parentArr, eager, g, hq, he, hg, ⟨hok, rfl⟩ | ⟨x, -, rfl⟩⟩ := checkJoin_cases hs
    · obtain ⟨⟨a, b, hready⟩, htidy⟩ := h.check _ hq
      obtain ⟨hentries, heq⟩ := htidy.joined rfl he
      have hdriver : c.session.stream.driver ≠ .processStream := by
        obtain ⟨cached, hc⟩ := h.tidy.asked (by rw [hready]; rfl)
        rw [hc]
        simp
      have htidy' := asks_tidy (l := .join) htidy trivial he
      refine ⟨hverifiers, h.tidy, fun q hq => ?_, fun _ => ?_, h.right⟩
      · cases hq
        refine ⟨⟨a, b, hready⟩, ?_⟩
        rw [heq] at htidy' ⊢
        exact htidy'
      · exact settled_of_accepted (h.verifiers.given hdriver g hg) hentries hok
    · exact h.alarmed hverifiers rfl rfl

/-! ## Sessions -/

theorem trusted_start (priority : Fin n → ℕ) (u : Unspecified n) : Trusted priority (start P n T B u) := by
  refine ⟨verifiers_start u, Session.tidy_startOf (tidy_init priority) rfl (fun t => rfl) _ _, fun q hq => (by cases hq),
    fun hcase => ?_, right_nil⟩
  rcases hcase with ⟨a, ha⟩ | hc
  · cases ha
  · exact hc.elim

/-- **No wrong answer.** In every session with `VERIFY_SAMPLES_F`, whatever the hash function, the schedules of all threads
and teams and the places where `find_root` makes its last load: every answer that a query returns is right for the graph of
the updates handed over before it. -/
theorem no_wrong_answer (hT : 0 < T) (u : Unspecified n) {ls : List (Label n T B)}
    (hs : exec (step priority) (start P n T B u) ls = some c) : Right Session.Correct c.session.history := by
  have h : Trusted priority c := exec_invariant _ (fun _ _ _ h hs => step_trusted hT h hs) (trusted_start priority u) hs
  exact h.right

open Threads in
/-- an edge is inserted, deleted and inserted, and `point_query` is asked for its ends: both vertices are checked first -/
def pairChecked : List (Label 2 2 2) := List.flatten [
  pairSteps 16 (Session.pairIngest ++ [.query (.pointQuery fst snd), .querier .left, .boruvka id] ++
    Emulation.pairTeam.map .emulate ++ [.finish]),
  [.checkBegin id], List.replicate 5 (.checkTeam fst .left), List.replicate 5 (.checkTeam snd .left), [.checkJoin],
  pairSteps 0 (List.replicate 9 (.querier .left))]

theorem no_wrong_answer_pair : ∃ c, exec (step Emulation.pairPriority) (start Emulation.pair 2 2 2 (pairUnspecified []))
    pairChecked = some c ∧ Session.latest c.session.history = some true ∧ Right Session.Correct c.session.history := by
  have hrun : ∃ c ∈ exec (step Emulation.pairPriority) (start Emulation.pair 2 2 2 (pairUnspecified [])) pairChecked,
      Session.latest c.session.history = some true := by
    decide +kernel
  obtain ⟨c, hc, hlatest⟩ := hrun
  exact ⟨c, hc, hlatest, no_wrong_answer (by norm_num) _ hc⟩

end Checked

end GraphStreamingCC
