/-
A session on one thread.

The races of `find_root` need two threads in one parallel region. With a single stream thread, and a single thread in the
teams of `create_merge_instructions` and of the constructor of `ConnectedComponents`, a `find_root` never finds a parent
changed between two of its loads (`FindPc.Exact`), so that its last load gives a root in every run.

`alone_right`: the answers of such a session are right whenever no index set that occurs has a false checksum.
-/
import GraphStreamingCC.Dsu.Alone
import GraphStreamingCC.Session.Answers

namespace GraphStreamingCC

open Boruvka Dsu Runs

variable {P : Params} {n T B : ℕ} {priority : Fin n → ℕ}

/-! ## The teams -/

namespace Eager

variable {s s' : St n T}

/-- the calls of `find_root` in the OpenMP loop have not been disturbed -/
def QueryPc.Undisturbed (p : Fin n → Fin n) : QueryPc n T → Prop
  | .team _ thr _ => ∀ t, ∀ x ∈ (thr t).cur, x.2.Exact p
  | .idle | .testValid _ | .boruvka _ | .ready _ | .first .. | .second .. | .answered _ => True

theorem undisturbed_of_free {pc : QueryPc n T} (h : pc.free = true) (p : Fin n → Fin n) : pc.Undisturbed p := by
  cases pc with
  | team => cases h
  | idle | testValid | boruvka | ready | first | second | answered => trivial

theorem finalLoad_of_undisturbed {l : Label n T} (h : s.query.Undisturbed s.parent) : FinalLoad s l := by
  cases l with
  | team t o =>
    simp only [FinalLoad]
    cases hq : s.query with
    | team q thr arr =>
      rw [hq] at h
      intro x hx
      exact (h t x hx).finalLoad
    | idle | testValid | boruvka | ready | first | second | answered => trivial
  | preInsert | thread | query | querier | boruvka | join => trivial

variable [Subsingleton (Fin T)]

/-- the thread of the team makes a step -/
theorem teamStep_undisturbed {q : Query n T} {thr : Fin T → TeamThread n} {arr : Fin n → Fin n}
    (h : ∀ t, ∀ x ∈ (thr t).cur, x.2.Exact s.parent) {t : Fin T} {o : Side} (hs : teamStep s q thr arr t o = some s') :
    s'.query.Undisturbed s'.parent := by
  have hone : ∀ {x : TeamThread n} {p : Fin n → Fin n}, (∀ y ∈ x.cur, y.2.Exact p) →
      ∀ t', ∀ y ∈ (Function.update thr t x t').cur, y.2.Exact p := by
    intro x p hx t' y hy
    rw [Subsingleton.elim t' t, Function.update_self] at hy
    exact hx y hy
  unfold teamStep at hs
  split at hs
  next => cases hs
  next v vs hcur htodo =>
    cases hs
    apply hone
    intro y hy
    cases hy
    exact FindPc.exact_start _ v
  next todo v f hcur =>
    split at hs
    next p' f' hst =>
      cases hs
      apply hone
      intro y hy
      cases hy
      exact FindPc.exact_step (h t (v, f) hcur) o hst
    next p' r hst =>
      cases hs
      apply hone
      intro y hy
      cases hy

theorem asks_undisturbed {l : Label n T} (hl : l.Asks) (h : s.query.Undisturbed s.parent) (hs : step priority s l = some s') :
    s'.query.Undisturbed s'.parent := by
  cases l with
  | preInsert | thread | boruvka => exact hl.elim
  | query q =>
    simp only [step] at hs
    split_ifs at hs
    cases hs
    trivial
  | querier o =>
    simp only [step, querierStep] at hs
    split at hs <;> (try split at hs) <;> cases hs <;> first | trivial | exact fun t x hx => by cases hx
  | team t o =>
    simp only [step] at hs
    split at hs
    next q thr arr hq =>
      rw [hq] at h
      exact teamStep_undisturbed h hs
    next => cases hs
  | join =>
    simp only [step] at hs
    split at hs
    · split_ifs at hs
      cases hs
      trivial
    · cases hs

end Eager

namespace Boruvka.Create

variable [Subsingleton (Fin T)] {s s' : St n T}

/-- the calls of `find_root` in `create_merge_instructions` have not been disturbed -/
def Undisturbed (s : St n T) : Prop := ∀ t i child f, s.phase.pc t = some (.find i child f) → f.Exact s.parent

omit [Subsingleton (Fin T)] in
theorem Undisturbed.finalLoad (h : Undisturbed s) (l : Label n T) : FinalLoad s l := by
  cases l with
  | thread t o =>
    intro c hc
    cases c with
    | find i child f => exact (h t i child f hc).finalLoad
    | visit | capture => trivial
  | iterate | barrier => trivial

omit [Subsingleton (Fin T)] in
theorem undisturbed_of_pc (h : ∀ t, s.phase.pc t = none) : Undisturbed s := by
  intro t i child f hf
  rw [h] at hf
  cases hf

theorem collectStep_undisturbed {thr : Fin T → Collect n} (hphase : s.phase = .collect thr) (h : Undisturbed s) {t : Fin T} {o : Side}
    (hs : collectStep s thr t o = some s') : Undisturbed s' := by
  have hone : ∀ {s' : St n T} {c : Collect n}, s'.phase = .collect (Function.update thr t c) →
      (∀ i child f, c = .find i child f → f.Exact s'.parent) → Undisturbed s' := by
    intro s' c hphase' hc t' i child f hf
    rw [hphase', Phase.pc, Subsingleton.elim t' t, Function.update_self] at hf
    exact hc i child f (Option.some.inj hf)
  unfold collectStep at hs
  split at hs
  next i hc =>
    split_ifs at hs
    cases hs
    split
    next m hm =>
      apply hone rfl
      intro i child f hf
      cases hf
      exact FindPc.exact_start _ m.child
    next => exact undisturbed_of_pc fun t => rfl
  next i child f hc =>
    have hexact := h t i child f (by rw [hphase, Phase.pc, hc])
    split at hs
    next p' f' hst =>
      cases hs
      apply hone rfl
      intro i child f hf
      cases hf
      exact FindPc.exact_step hexact o hst
    next p' r hst =>
      cases hs
      apply hone rfl
      intro i child f hf
      cases hf
  next => cases hs
  next cc todo hc =>
    cases hs
    apply hone rfl
    intro i child f hf
    cases hf

theorem step_undisturbed (h : Undisturbed s) {l : Label n T} (hs : step s l = some s') : Undisturbed s' := by
  cases l with
  | thread t o =>
    simp only [step] at hs
    split at hs
    next thr hphase => exact collectStep_undisturbed hphase h hs
    next =>
      unfold prefixStep at hs
      split_ifs at hs <;> cases hs <;> exact undisturbed_of_pc fun _ => rfl
    next =>
      unfold finishStep at hs
      split_ifs at hs <;> cases hs <;> exact undisturbed_of_pc fun _ => rfl
    next =>
      unfold writeStep at hs
      split at hs
      · cases hs
      · split_ifs at hs <;> cases hs <;> exact undisturbed_of_pc fun _ => rfl
    all_goals cases hs
  | iterate t order =>
    simp only [step] at hs
    split at hs
    next thr hphase =>
      split at hs
      next i hc =>
        split_ifs at hs
        cases hs
        intro t' i child f hf
        rw [Phase.pc, Subsingleton.elim t' t, Function.update_self] at hf
        cases hf
      all_goals cases hs
    all_goals cases hs
  | barrier =>
    simp only [step, barrierStep] at hs
    split at hs <;> (try split_ifs at hs) <;> cases hs <;> exact undisturbed_of_pc fun _ => rfl

end Boruvka.Create

namespace Boruvka.Emulation

variable {s s' : St P n T} {owner : Fin n → Fin T}

def Undisturbed (s : St P n T) : Prop :=
  match s.phase with
  | .create _ c => Create.Undisturbed c
  | .round .. | .returned .. | .threw .. => True

theorem Undisturbed.finalLoad (h : Undisturbed s) (l : Label n T) : FinalLoad s l := by
  cases l with
  | create l =>
    unfold Undisturbed at h
    simp only [FinalLoad]
    cases hphase : s.phase with
    | create w c =>
      rw [hphase] at h
      exact h.finalLoad l
    | round | returned | threw => trivial
  | thread | join => trivial

theorem step_undisturbed [Subsingleton (Fin T)] (h : Undisturbed s) {l : Label n T} (hs : step owner priority s l = some s') :
    Undisturbed s' := by
  cases l with
  | thread t o =>
    simp only [step] at hs
    split at hs
    · obtain ⟨w, -, rfl⟩ := Option.map_eq_some_iff.1 hs
      trivial
    all_goals cases hs
  | create l =>
    simp only [step] at hs
    unfold Undisturbed at h
    split at hs
    next w c hphase =>
      rw [hphase] at h
      obtain ⟨c', hc, rfl⟩ := Option.map_eq_some_iff.1 hs
      exact Create.step_undisturbed h hc
    all_goals cases hs
  | join =>
    rcases join_cases hs with ⟨mergeInstr, w, -, -, ⟨e, -, rfl⟩ | ⟨-, -, rfl⟩ | ⟨-, -, rfl⟩⟩ | ⟨w, c, -, -, rfl⟩
    · trivial
    · intro t i child f hf
      cases hf
    · trivial
    · trivial

end Boruvka.Emulation

/-! ## The session -/

namespace Session

open Eager Service

variable {s s' : St P n T B}

/-- no `find_root` of a team has been disturbed -/
def Undisturbed (s : St P n T B) : Prop :=
  s.stream.eager.query.Undisturbed s.stream.eager.parent ∧ ∀ x ∈ s.boruvka, Emulation.Undisturbed x.2

theorem Undisturbed.finalLoad (h : Undisturbed s) (l : Label n T B) : FinalLoad s l := by
  cases l with
  | team t o => exact finalLoad_of_undisturbed (l := .team t o) h.1
  | emulate l => exact fun x hx => (h.2 x hx).finalLoad l
  | processStreamUntil | prepQuery | stream | query | querier | join | boruvka | finish => trivial

theorem eagerStep_undisturbed [Subsingleton (Fin T)] (h : Undisturbed s) {l : Eager.Label n T} (hl : l.Asks)
    (hs : eagerStep priority s l = some s') : Undisturbed s' := by
  obtain ⟨eager, he, rfl⟩ := Option.map_eq_some_iff.1 hs
  exact ⟨asks_undisturbed hl h.1 he, h.2⟩

theorem streamStep_undisturbed (hinv : Inv priority s) (h : Undisturbed s) {l : Stream.Label n T}
    (hs : streamStep priority s l = some s') : Undisturbed s' := by
  obtain ⟨stream, he, rfl⟩ := Option.map_eq_some_iff.1 hs
  have heager : stream.eager.query.Undisturbed stream.eager.parent := by
    by_cases hf : s.stream.eager.query.free = true
    · exact undisturbed_of_free ((Stream.step_query hinv.stream.eager hinv.exact he).2.trans hf) _
    · obtain ⟨c, hc⟩ := hinv.asked (by simpa using hf)
      obtain ⟨src, dsts, rfl⟩ := Stream.batch_of_ready hinv.stream hc he
      simp only [Stream.step] at he
      split_ifs at he
      cases he
      exact h.1
  cases l with
  | batch src dsts =>
    simp only
    split_ifs
    · exact h
    · exact ⟨heager, h.2⟩
  | getUpdateBuffer | reader | driver => exact ⟨heager, h.2⟩

theorem step_undisturbed [Subsingleton (Fin T)] [Subsingleton (Fin B)] (hinv : Inv priority s) (h : Undisturbed s)
    {l : Label n T B} (hs : step priority s l = some s') : Undisturbed s' := by
  unfold step at hs
  split_ifs at hs
  cases l with
  | processStreamUntil us =>
    simp only [act] at hs
    split_ifs at hs
    cases hs
    exact h
  | prepQuery =>
    simp only [act] at hs
    split_ifs at hs
    cases hs
    exact h
  | stream l => exact streamStep_undisturbed hinv h hs
  | query q =>
    simp only [act] at hs
    split at hs
    next => exact eagerStep_undisturbed (l := .query q) h trivial hs
    all_goals cases hs
  | querier o => exact eagerStep_undisturbed (l := .querier o) h trivial hs
  | team t o => exact eagerStep_undisturbed (l := .team t o) h trivial hs
  | join => exact eagerStep_undisturbed (l := .join) h trivial hs
  | boruvka owner =>
    simp only [act] at hs
    split at hs
    next =>
      cases hs
      refine ⟨h.1, fun x hx => ?_⟩
      cases hx
      trivial
    next => cases hs
  | emulate l =>
    simp only [act] at hs
    split at hs
    next owner e hx =>
      obtain ⟨e', he, rfl⟩ := Option.map_eq_some_iff.1 hs
      refine ⟨h.1, fun x hx' => ?_⟩
      cases hx'
      exact Emulation.step_undisturbed (h.2 _ hx) he
    next => cases hs
  | finish =>
    simp only [act] at hs
    split at hs
    next owner e hx =>
      unfold finish at hs
      split at hs
      next k w hphase =>
        obtain ⟨eager, he, rfl⟩ := Option.map_eq_some_iff.1 hs
        refine ⟨?_, fun x hx' => by cases hx'⟩
        simp only [Eager.step] at he
        split at he
        next => cases he; trivial
        next => cases he
      next =>
        cases hs
        exact ⟨trivial, fun x hx' => by cases hx'⟩
      all_goals cases hs
    next => cases hs

end Session

end GraphStreamingCC
