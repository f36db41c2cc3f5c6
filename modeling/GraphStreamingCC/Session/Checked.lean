/-
A session of the build with `VERIFY_SAMPLES_F` (include/graph_sketch_driver.h, src/cc_sketch_alg.cpp).

Every stream thread keeps a `GraphVerifier` of its own for the time of a call of `process_stream_until`, and combines it into
the driver's when it meets the breakpoint. When the threads are joined, the algorithm is given a copy. With this copy it checks
- the edges of `spanning_forest`, when a query finds a cached answer;
- the edge of every merge of `boruvka_emulation`, before it goes into `spanning_forest`;
- the `ConnectedComponents` of every query; `point_query` makes one only for this;
- the `SpanningForest` of `calc_spanning_forest`.
Apart from this, the session is that of `Session.step`.

A check that fails throws. This ends the run, although in `boruvka_emulation` the other threads still come to the end of the
parallel region before the exception is thrown again, and a user might catch it. Before `process_stream_until` has returned
for the first time there is no verifier, and a check has no defined behaviour.
-/
import GraphStreamingCC.Session.Model
import GraphStreamingCC.Verifier.Holds

namespace GraphStreamingCC.Checked

open Boruvka Dsu Eager SpanningForest

variable {P : Params} {n T B : ℕ}

/-- what a step leaves to chance -/
structure Unspecified (n : ℕ) where
  /-- the priorities of the union-finds that are constructed -/
  priority : ℕ → Fin n → ℕ
  /-- members that a constructor leaves uninitialized -/
  kruskalCcs : ℕ → ℕ
  /-- the order in which the sets of `spanning_forest` are iterated -/
  order : Fin n → List (Fin n)

structure St (P : Params) (n T B : ℕ) where
  session : Session.St P n T B
  /-- `local_verifier` of each stream thread -/
  localVerifier : Fin T → GraphVerifier n
  /-- `verifier` of the driver -/
  verifier : GraphVerifier n
  /-- `verifier` of the algorithm -/
  given : Option (GraphVerifier n)
  /-- the `ConnectedComponents` that `point_query` makes: while it is made, and when it has been accepted -/
  check : Option (QueryPc n T)
  alarm : Option VerifierException

inductive Label (n T B : ℕ) where
  | session (l : Session.Label n T B) (u : Unspecified n)
  /-- `point_query` makes a `ConnectedComponents`; `owner` is the schedule of its loop -/
  | checkBegin (owner : Fin n → Fin T)
  | checkTeam (t : Fin T) (o : Side)
  /-- its team has finished, and it is verified -/
  | checkJoin

/-- what is asked of a verifier, and what that leaves of it -/
abbrev Check (n : ℕ) := GraphVerifier n → GraphVerifier n × Verdict

namespace St

/-! ## The verifiers of the driver -/

/-- what the driver does with its verifiers beside the step l of the session, which goes to s -/
def keep (c : St P n T B) (s : Session.St P n T B) (u : Unspecified n) : Session.Label n T B → St P n T B
  | .processStreamUntil _ => { c with session := s, localVerifier := fun t => .new (u.priority t) (u.kruskalCcs t) }
  | .stream (.reader t _) =>
    match (c.session.stream.readers t).pc with
    | .insertDst e =>
      { c with
        session := s
        localVerifier := Function.update c.localVerifier t ((c.localVerifier t).edgeUpdate e.1 e.2).1 }
    | .next | .preInsert _ | .insertSrc _ | .returned => { c with session := s }
  | .stream (.getUpdateBuffer t _) =>
    match (s.stream.readers t).pc with
    | .returned => { c with session := s, verifier := c.verifier.combine (c.localVerifier t) }
    | .next | .preInsert _ | .insertSrc _ | .insertDst _ => { c with session := s }
  | .stream .driver =>
    match c.session.stream.driver with
    | .processStream => { c with session := s, given := some (c.verifier.copy (u.kruskalCcs 0)) }
    | .prepQuery | .flush | .ready _ => { c with session := s }
  | .querier _ => { c with session := s, check := none }
  | .prepQuery | .stream (.batch ..) | .query _ | .team .. | .join | .boruvka _ | .emulate _ | .finish =>
    { c with session := s }

/-! ## The checks of the algorithm -/

/-- the edge that this step of `boruvka_emulation` puts into the forest -/
def inserted (c : St P n T B) : Emulation.Label n B → Option (Fin n × Fin n)
  | .thread t _ =>
    match c.session.boruvka with
    | some (_, ⟨_, .round _ w, _⟩) =>
      match (w.thr t).pc with
      | .insert e => some e
      | .idle | .ready .. | .merge .. | .mark => none
    | _ => none
  | .create _ | .join => none

/-- the `ConnectedComponents` of a query, and the forest of `calc_spanning_forest` -/
def verifyAnswer (u : Unspecified n) (parentArr : Fin n → Fin n) (q : Query n T) : Check n := fun g =>
  match g.verifyConnectedComponents (GraphVerifier.countFixed parentArr), q with
  | (g, .ok ()), .calcSpanningForest _ => g.verifySpanningForests u.priority [edgesOf u.order]
  | r, _ => r

/-- what the algorithm asks its verifier at the step l of the session, which goes to s -/
def asked (c : St P n T B) (s : Session.St P n T B) (u : Unspecified n) : Session.Label n T B → Option (Check n)
  | .querier _ =>
    match c.session.stream.eager.query, s.stream.eager.query with
    -- there is a cached answer
    | .testValid _, .ready _ => some fun g => (g, g.verifyEdges (edgesOf u.order))
    | _, _ => none
  | .emulate l => (c.inserted l).map fun e g => (g, g.verifyEdge e)
  | .join =>
    match c.session.stream.eager.query with
    | .team q _ parentArr => some (verifyAnswer u parentArr q)
    | _ => none
  | .processStreamUntil _ | .prepQuery | .stream _ | .query _ | .team .. | .boruvka _ | .finish => none

/-- the verifier is asked; if it does not throw, the algorithm goes on to c' -/
def verified (c c' : St P n T B) (check : Check n) : Option (St P n T B) :=
  c.given.map fun g =>
    match check g with
    | (g, .ok ()) => { c' with given := some g }
    | (g, .error x) => { c with given := some g, alarm := some x }

/-- `point_query` does not go on before its `ConnectedComponents` has been accepted -/
def waits (c : St P n T B) : Session.Label n T B → Bool
  | .querier _ =>
    match c.session.stream.eager.query, c.check with
    | .ready (.pointQuery ..), some (.answered _) => false
    | .ready (.pointQuery ..), _ => true
    | _, _ => false
  | .processStreamUntil _ | .prepQuery | .stream _ | .query _ | .team .. | .join | .boruvka _ | .emulate _ | .finish => false

/-- the union-find while `point_query` makes its `ConnectedComponents` -/
def checking (c : St P n T B) (q : QueryPc n T) : Eager.St n T := { c.session.stream.eager with query := q }

/-- its `find_root` calls halve paths -/
def withParent (c : St P n T B) (parent : Fin n → Fin n) : St P n T B :=
  { c with session := { c.session with stream := { c.session.stream with
      eager := { c.session.stream.eager with parent := parent } } } }

end St

def act (priority : Fin n → ℕ) (c : St P n T B) : Label n T B → Option (St P n T B)
  | .session l u =>
    if Enumerates u.order c.session.stream.eager.spanningForest ∧ c.waits l = false then
      (Session.step priority c.session l).bind fun s =>
        match c.asked s u l with
        | none => some (c.keep s u l)
        | some check => c.verified (c.keep s u l) check
    else none
  | .checkBegin owner =>
    match c.session.stream.eager.query, c.check with
    | .ready (.pointQuery ..), none => some { c with check := some (.loop (.connectedComponents owner) owner) }
    | _, _ => none
  | .checkTeam t o =>
    match c.check with
    | some q =>
      (Eager.step priority (c.checking q) (.team t o)).map fun eager =>
        { c.withParent eager.parent with check := some eager.query }
    | none => none
  | .checkJoin =>
    match c.check with
    | some (.team q thr parentArr) =>
      (Eager.step priority (c.checking (.team q thr parentArr)) .join).bind fun eager =>
        c.verified { c with check := some eager.query } fun g =>
          g.verifyConnectedComponents (GraphVerifier.countFixed parentArr)
    | _ => none

def step (priority : Fin n → ℕ) (c : St P n T B) (l : Label n T B) : Option (St P n T B) :=
  if c.alarm.isSome then none else act priority c l

/-- a new algorithm and a driver for it -/
def start (P : Params) (n T B : ℕ) (u : Unspecified n) : St P n T B :=
  ⟨Session.start P n T B, fun t => .new (u.priority t) (u.kruskalCcs t), .new (u.priority T) (u.kruskalCcs T), none, none, none⟩

/-- `check_verifier(expected)` of the driver -/
def checkVerifier (c : St P n T B) (expected : GraphVerifier n) : Except String Unit :=
  if c.verifier.adjMatrix ≠ expected.adjMatrix then .error "Mismatch between driver verifier and expected verifier" else .ok ()

/-! ## What a step does -/

variable {priority : Fin n → ℕ} {c c' : St P n T B}

/-- a check that is made: the verifier accepts, or throws -/
theorem verified_cases {c₁ : St P n T B} {check : Check n} (h : c.verified c₁ check = some c') : ∃ g, c.given = some g ∧
    ((check g).2 = .ok () ∧ c' = { c₁ with given := some (check g).1 } ∨
      ∃ x, (check g).2 = .error x ∧ c' = { c with given := some (check g).1, alarm := some x }) := by
  obtain ⟨g, hg, h⟩ := Option.map_eq_some_iff.1 h
  refine ⟨g, hg, ?_⟩
  split at h
  next g' hok =>
    rw [hok]
    exact .inl ⟨rfl, h.symm⟩
  next g' x herr =>
    rw [herr]
    exact .inr ⟨x, rfl, h.symm⟩

/-- a step of the session: nothing is checked, or the verifier accepts, or it throws -/
theorem session_cases {l : Session.Label n T B} {u : Unspecified n} (hs : step priority c (.session l u) = some c') :
    c.alarm = none ∧ Enumerates u.order c.session.stream.eager.spanningForest ∧ c.waits l = false ∧
      ∃ s, Session.step priority c.session l = some s ∧
        (c.asked s u l = none ∧ c' = c.keep s u l ∨ ∃ check g, c.asked s u l = some check ∧ c.given = some g ∧
          ((check g).2 = .ok () ∧ c' = { c.keep s u l with given := some (check g).1 } ∨
            ∃ x, (check g).2 = .error x ∧ c' = { c with given := some (check g).1, alarm := some x })) := by
  unfold step at hs
  split_ifs at hs with halarm
  simp only [act] at hs
  split_ifs at hs with hu
  obtain ⟨s, hstep, hs⟩ := Option.bind_eq_some_iff.1 hs
  refine ⟨by simpa using halarm, hu.1, hu.2, s, hstep, ?_⟩
  split at hs
  next hnone => exact .inl ⟨hnone, (Option.some.inj hs).symm⟩
  next check hcheck =>
    obtain ⟨g, hg, hcase⟩ := verified_cases hs
    exact .inr ⟨check, g, hcheck, hg, hcase⟩

/-- a step of the `ConnectedComponents` of `point_query` -/
theorem checkTeam_cases {t : Fin T} {o : Side} (hs : step priority c (.checkTeam t o) = some c') :
    c.alarm = none ∧ ∃ q eager, c.check = some q ∧ Eager.step priority (c.checking q) (.team t o) = some eager ∧
      c' = { c.withParent eager.parent with check := some eager.query } := by
  unfold step at hs
  split_ifs at hs with halarm
  simp only [act] at hs
  split at hs
  next q hq =>
    obtain ⟨eager, he, rfl⟩ := Option.map_eq_some_iff.1 hs
    exact ⟨by simpa using halarm, q, eager, hq, he, rfl⟩
  next => cases hs

theorem checkJoin_cases (hs : step priority c .checkJoin = some c') :
    c.alarm = none ∧ ∃ q thr parentArr eager g, c.check = some (.team q thr parentArr) ∧
      Eager.step priority (c.checking (.team q thr parentArr)) .join = some eager ∧ c.given = some g ∧
      ((g.verifyConnectedComponents (GraphVerifier.countFixed parentArr)).2 = .ok () ∧
          c' = { c with
            check := some eager.query
            given := some (g.verifyConnectedComponents (GraphVerifier.countFixed parentArr)).1 } ∨
        ∃ x, (g.verifyConnectedComponents (GraphVerifier.countFixed parentArr)).2 = .error x ∧
          c' = { c with
            given := some (g.verifyConnectedComponents (GraphVerifier.countFixed parentArr)).1
            alarm := some x }) := by
  unfold step at hs
  split_ifs at hs with halarm
  simp only [act] at hs
  split at hs
  next q thr parentArr hq =>
    obtain ⟨eager, he, hs⟩ := Option.bind_eq_some_iff.1 hs
    obtain ⟨g, hg, hcase⟩ := verified_cases hs
    exact ⟨by simpa using halarm, q, thr, parentArr, eager, g, hq, he, hg, hcase⟩
  next => cases hs

theorem checkBegin_cases {owner : Fin n → Fin T} (hs : step priority c (.checkBegin owner) = some c') :
    c.alarm = none ∧ (∃ a b, c.session.stream.eager.query = .ready (.pointQuery a b)) ∧ c.check = none ∧
      c' = { c with check := some (.loop (.connectedComponents owner) owner) } := by
  unfold step at hs
  split_ifs at hs with halarm
  simp only [act] at hs
  split at hs
  next a b hq hc => exact ⟨by simpa using halarm, ⟨a, b, hq⟩, hc, (Option.some.inj hs).symm⟩
  next => cases hs

end GraphStreamingCC.Checked
