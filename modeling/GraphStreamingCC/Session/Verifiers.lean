/-
The verifiers of a session with `VERIFY_SAMPLES_F`.

`Ledger`: what the driver's verifier has been given, what the stream threads' verifiers have, what the threads are at and
what is still in their arrays or in the stream are together the updates handed over. When `process_stream_until` has
returned, all of it is in the driver's verifier, whose copy the algorithm gets (`verifiers_exact`). Nothing is assumed of
the queries: this holds whatever they answer.
-/
import GraphStreamingCC.Session.Account
import GraphStreamingCC.Session.Checked

namespace GraphStreamingCC

open Boruvka Dsu Eager Parity Runs Service

variable {P : Params} {n T B : ℕ} {priority : Fin n → ℕ}

namespace Session

variable {s s' : St P n T B}

/-- a label of a query -/
def Label.Apart : Label n T B → Prop
  | .query _ | .querier _ | .team .. | .join | .boruvka _ | .emulate _ | .finish => True
  | .processStreamUntil _ | .prepQuery | .stream _ => False

/-- a query touches neither the stream threads nor the driver, and hands over no updates -/
theorem apart_frame {l : Label n T B} (hl : l.Apart) (hs : step priority s l = some s') :
    s'.stream.readers = s.stream.readers ∧ s'.stream.stream = s.stream.stream ∧ s'.stream.driver = s.stream.driver ∧
      updates s'.history = updates s.history ∧ ∀ us, .updates us ∈ s'.history → .updates us ∈ s.history := by
  have hrecord : ∀ pc : QueryPc n T, ∀ us, .updates us ∈ record s.history pc → .updates us ∈ s.history := by
    intro pc us hus
    cases pc with
    | answered a => exact (List.mem_cons.1 hus).resolve_left fun he => by cases he
    | idle | testValid | boruvka | ready | team | first | second => exact hus
  have heager : ∀ l, eagerStep priority s l = some s' → s'.stream.readers = s.stream.readers ∧
      s'.stream.stream = s.stream.stream ∧ s'.stream.driver = s.stream.driver ∧ updates s'.history = updates s.history ∧
        ∀ us, .updates us ∈ s'.history → .updates us ∈ s.history := by
    intro l he
    obtain ⟨eager, -, rfl⟩ := Option.map_eq_some_iff.1 he
    exact ⟨rfl, rfl, rfl, updates_record _ _, hrecord _⟩
  unfold step at hs
  split_ifs at hs
  cases l with
  | processStreamUntil | prepQuery | stream => exact hl.elim
  | query q =>
    simp only [act] at hs
    split at hs
    next => exact heager _ hs
    all_goals cases hs
  | querier o => exact heager _ hs
  | team t o => exact heager _ hs
  | join => exact heager _ hs
  | boruvka owner =>
    simp only [act] at hs
    split at hs <;> cases hs
    exact ⟨rfl, rfl, rfl, rfl, fun us hus => hus⟩
  | emulate l =>
    simp only [act] at hs
    split at hs
    · obtain ⟨e, -, rfl⟩ := Option.map_eq_some_iff.1 hs
      exact ⟨rfl, rfl, rfl, rfl, fun us hus => hus⟩
    · cases hs
  | finish =>
    simp only [act, finish] at hs
    split at hs
    · split at hs
      · obtain ⟨eager, -, rfl⟩ := Option.map_eq_some_iff.1 hs
        exact ⟨rfl, rfl, rfl, rfl, fun us hus => hus⟩
      · cases hs
        exact ⟨rfl, rfl, rfl, rfl, fun us hus => (List.mem_cons.1 hus).resolve_left fun he => by cases he⟩
      all_goals cases hs
    · cases hs

end Session

namespace Checked

open GraphVerifier

variable {c c' : St P n T B}

/-! ## The ledger -/

/-- the updates that a stream thread has and has not combined: in its array, at hand, and in its verifier -/
def held (r : Stream.Reader n) (part : List (Fin n × Fin n)) : Multiset (Fin n × Fin n) :=
  match r.pc with
  | .next => ↑(r.updateArray ++ part)
  | .preInsert e | .insertSrc e | .insertDst e => e ::ₘ ↑(r.updateArray ++ part)
  | .returned => ↑r.updateArray

/-- the verifiers of the threads have seen `parts`, and that of the driver has seen `combined` -/
structure Ledger (c : St P n T B) (parts : Fin T → List (Fin n × Fin n)) (combined : List (Fin n × Fin n)) : Prop where
  part : ∀ t, (c.localVerifier t).adjMatrix = matrix (parts t)
  whole : c.verifier.adjMatrix = matrix combined
  sum : (combined : Multiset (Fin n × Fin n)) + ∑ t, held (c.session.stream.readers t) (parts t) + c.session.stream.stream =
    updates c.session.history

variable {parts : Fin T → List (Fin n × Fin n)} {combined : List (Fin n × Fin n)}

theorem Ledger.frame (h : Ledger c parts combined) (hreaders : c'.session.stream.readers = c.session.stream.readers)
    (hstream : c'.session.stream.stream = c.session.stream.stream)
    (hupdates : updates c'.session.history = updates c.session.history) (hlocal : c'.localVerifier = c.localVerifier)
    (hverifier : c'.verifier = c.verifier) : Ledger c' parts combined := by
  refine ⟨fun t => ?_, ?_, ?_⟩
  · rw [hlocal]
    exact h.part t
  · rw [hverifier]
    exact h.whole
  · rw [hreaders, hstream, hupdates]
    exact h.sum

/-- one thread moves, and its verifier with it -/
theorem Ledger.move (h : Ledger c parts combined) {t : Fin T} {r : Stream.Reader n} {part combined' rest : List (Fin n × Fin n)}
    (hreaders : c'.session.stream.readers = Function.update c.session.stream.readers t r)
    (hstream : c'.session.stream.stream = rest) (hupdates : updates c'.session.history = updates c.session.history)
    (hlocal : (c'.localVerifier t).adjMatrix = matrix part) (hothers : ∀ t', t' ≠ t → c'.localVerifier t' = c.localVerifier t')
    (hwhole : c'.verifier.adjMatrix = matrix combined')
    (hsum : (combined' : Multiset (Fin n × Fin n)) + held r part + rest =
      combined + held (c.session.stream.readers t) (parts t) + c.session.stream.stream) :
    Ledger c' (Function.update parts t part) combined' := by
  refine ⟨fun t' => ?_, hwhole, ?_⟩
  · by_cases ht : t' = t
    · subst ht
      rw [Function.update_self]
      exact hlocal
    · rw [Function.update_of_ne ht, hothers t' ht]
      exact h.part t'
  · have hmove := Threads.sum_move (f := fun t' => held (c.session.stream.readers t') (parts t'))
      (g := fun t' => held (Function.update c.session.stream.readers t r t') (Function.update parts t part t')) (i := t)
      fun t' ht => by rw [Function.update_of_ne ht, Function.update_of_ne ht]
    simp only [Function.update_self] at hmove
    rw [hreaders, hstream, hupdates]
    apply add_right_cancel (b := held (c.session.stream.readers t) (parts t))
    calc _ = (combined' : Multiset (Fin n × Fin n)) + (∑ t', held (Function.update c.session.stream.readers t r t')
            (Function.update parts t part t') + held (c.session.stream.readers t) (parts t)) + rest := by abel
      _ = (combined' : Multiset (Fin n × Fin n)) + held r part + rest +
            ∑ t', held (c.session.stream.readers t') (parts t') := by rw [hmove]; abel
      _ = _ := by rw [hsum, ← h.sum]; abel

/-- when all threads have returned, everything is in the driver's verifier -/
theorem Ledger.idle (h : Ledger c parts combined) (hreaders : ∀ t, (c.session.stream.readers t).pc = .returned)
    (harr : ∀ t, (c.session.stream.readers t).updateArray = []) (hstream : c.session.stream.stream = []) :
    combined.Perm (updates c.session.history) := by
  have hsum := h.sum
  have hzero : ∀ t, held (c.session.stream.readers t) (parts t) = 0 := by
    intro t
    rw [held, hreaders t, harr t]
    rfl
  simp only [hzero, hstream, Multiset.coe_nil, Finset.sum_const_zero, add_zero, Multiset.coe_eq_coe] at hsum
  exact hsum

/-! ## One step -/

structure Verifiers (c : St P n T B) : Prop where
  account : Session.Account 0 c.session
  ledger : ∃ parts combined, Ledger c parts combined
  /-- the algorithm's verifier has all updates -/
  given : c.session.stream.driver ≠ .processStream → ∀ g ∈ c.given, g.Holds (updates c.session.history)
  /-- it is there as soon as there are updates -/
  handed : c.session.stream.driver ≠ .processStream → c.given = none → ∀ us, .updates us ∉ c.session.history

theorem Verifiers.whole (hT : 0 < T) (h : Verifiers c) (hd : c.session.stream.driver ≠ .processStream) :
    c.verifier.adjMatrix = matrix (updates c.session.history) := by
  obtain ⟨parts, combined, hledger⟩ := h.ledger
  have hret := h.account.joined hd
  rw [hledger.whole]
  apply matrix_perm
  exact hledger.idle hret (fun t => (h.account.returned t (hret t)).1) (h.account.returned ⟨0, hT⟩ (hret _)).2

/-- the answers of a verifier do not change what it holds -/
def Harmless (check : Check n) : Prop := ∀ g us, g.Holds us → (check g).1.Holds us

theorem harmless_verifyAnswer (u : Unspecified n) (parentArr : Fin n → Fin n) (q : Query n T) :
    Harmless (St.verifyAnswer u parentArr q) := by
  intro g us hg
  have hcc := hg.verifyConnectedComponents (countFixed parentArr)
  unfold St.verifyAnswer
  split
  next g' _ he =>
    rw [he] at hcc
    exact hcc.verifySpanningForest u.priority _
  next => exact hcc

theorem harmless_of_asked {l : Session.Label n T B} {s : Session.St P n T B} {u : Unspecified n} {check : Check n}
    (h : c.asked s u l = some check) : l.Apart ∧ Harmless check := by
  cases l with
  | processStreamUntil | prepQuery | stream | query | team | boruvka | finish => cases h
  | querier o =>
    simp only [St.asked] at h
    split at h <;> cases h
    exact ⟨trivial, fun g us hg => hg⟩
  | emulate l =>
    obtain ⟨e, -, rfl⟩ := Option.map_eq_some_iff.1 h
    exact ⟨trivial, fun g us hg => hg⟩
  | join =>
    simp only [St.asked] at h
    split at h <;> cases h
    exact ⟨trivial, harmless_verifyAnswer u _ _⟩

/-- a step that leaves the driver and its verifiers alone -/
theorem Verifiers.frame (h : Verifiers c) (haccount : Session.Account 0 c'.session)
    (hreaders : c'.session.stream.readers = c.session.stream.readers)
    (hstream : c'.session.stream.stream = c.session.stream.stream)
    (hdriver : c'.session.stream.driver ≠ .processStream → c.session.stream.driver ≠ .processStream)
    (hupdates : updates c'.session.history = updates c.session.history)
    (hhistory : ∀ us, .updates us ∈ c'.session.history → .updates us ∈ c.session.history)
    (hlocal : c'.localVerifier = c.localVerifier) (hverifier : c'.verifier = c.verifier)
    (hgiven : ∀ us, (∀ g ∈ c.given, g.Holds us) → ∀ g ∈ c'.given, g.Holds us)
    (hsome : c'.given = none → c.given = none) : Verifiers c' := by
  obtain ⟨parts, combined, hledger⟩ := h.ledger
  refine ⟨haccount, ⟨parts, combined, hledger.frame hreaders hstream hupdates hlocal hverifier⟩, fun hd => ?_, fun hd hnone us => ?_⟩
  · rw [hupdates]
    exact hgiven _ (h.given (hdriver hd))
  · exact fun hus => h.handed (hdriver hd) (hsome hnone) us (hhistory us hus)

theorem Verifiers.withCheck (h : Verifiers c) (check : Option (QueryPc n T)) : Verifiers { c with check := check } :=
  h.frame h.account rfl rfl id rfl (fun _ => id) rfl rfl (fun _ => id) id

/-- a stream thread, and what its verifier has been given -/
theorem Verifiers.move (h : Verifiers c) (haccount : Session.Account 0 c'.session) {t : Fin T}
    (hrun : (c.session.stream.readers t).pc ≠ .returned) (hdriver : c'.session.stream.driver = c.session.stream.driver)
    (hledger : ∀ parts combined, Ledger c parts combined → ∃ part combined', Ledger c' (Function.update parts t part) combined') :
    Verifiers c' := by
  have hd : c'.session.stream.driver = .processStream := by
    rw [hdriver]
    by_contra hd
    exact hrun (h.account.joined hd t)
  obtain ⟨parts, combined, hold⟩ := h.ledger
  obtain ⟨part, combined', hnew⟩ := hledger parts combined hold
  exact ⟨haccount, ⟨_, _, hnew⟩, fun hne => absurd hd hne, fun hne => absurd hd hne⟩

theorem reader_verifiers (h : Verifiers c) {t : Fin T} {o : Side} {stream : Stream.St P n T} (u : Unspecified n)
    (hs : Stream.readerStep priority c.session.stream t o = some stream)
    (haccount : Session.Account 0 { c.session with stream := stream }) :
    Verifiers (c.keep { c.session with stream := stream } u (.stream (.reader t o))) := by
  cases hpc : (c.session.stream.readers t).pc with
  | next =>
    cases harr : (c.session.stream.readers t).updateArray with
    | nil => simp [Stream.readerStep, hpc, harr] at hs
    | cons e rest =>
      simp only [Stream.readerStep, hpc, harr, Option.map_eq_some_iff] at hs
      obtain ⟨eager, -, rfl⟩ := hs
      simp only [St.keep, hpc]
      refine h.move haccount (by rw [hpc]; simp) rfl fun parts combined hold => ⟨parts t, combined, ?_⟩
      refine hold.move rfl rfl rfl (hold.part t) (fun _ _ => rfl) hold.whole ?_
      simp only [held, hpc, harr, List.cons_append, Multiset.cons_coe]
  | preInsert e =>
    simp only [St.keep, hpc]
    simp only [Stream.readerStep, hpc] at hs
    split_ifs at hs
    · cases hs
      refine h.move haccount (by rw [hpc]; simp) rfl fun parts combined hold => ⟨parts t, combined, ?_⟩
      refine hold.move rfl rfl rfl (hold.part t) (fun _ _ => rfl) hold.whole ?_
      simp only [held, hpc]
      rfl
    · obtain ⟨eager, -, rfl⟩ := Option.map_eq_some_iff.1 hs
      exact h.frame haccount rfl rfl id rfl (fun _ => id) rfl rfl (fun _ => id) id
  | insertSrc e =>
    simp only [Stream.readerStep, hpc, Option.some.injEq] at hs
    subst hs
    simp only [St.keep, hpc]
    refine h.move haccount (by rw [hpc]; simp) rfl fun parts combined hold => ⟨parts t, combined, ?_⟩
    refine hold.move rfl rfl rfl (hold.part t) (fun _ _ => rfl) hold.whole ?_
    simp only [held, hpc]
    rfl
  | insertDst e =>
    -- here the thread's verifier sees the update
    simp only [Stream.readerStep, hpc, Option.some.injEq] at hs
    subst hs
    simp only [St.keep, hpc]
    refine h.move haccount (by rw [hpc]; simp) rfl fun parts combined hold => ⟨parts t ++ [e], combined, ?_⟩
    refine hold.move rfl rfl rfl ?_ (fun t' ht => Function.update_of_ne ht _ _) hold.whole ?_
    · simp only [Function.update_self, edgeUpdate_fin, hold.part t]
      rw [matrix_append]
      rfl
    · simp only [held, hpc, ← List.append_assoc]
      rw [← Multiset.coe_add, Multiset.coe_singleton, Multiset.add_comm _ {e}, Multiset.singleton_add]
      rfl
  | returned => simp [Stream.readerStep, hpc] at hs

theorem getUpdateBuffer_verifiers (h : Verifiers c) {t : Fin T} {k : ℕ} {stream : Stream.St P n T} (u : Unspecified n)
    (hs : Stream.step priority c.session.stream (.getUpdateBuffer t k) = some stream)
    (haccount : Session.Account 0 { c.session with stream := stream }) :
    Verifiers (c.keep { c.session with stream := stream } u (.stream (.getUpdateBuffer t k))) := by
  simp only [Stream.step] at hs
  split_ifs at hs with hnext hnil hk <;> cases hs
  · -- the breakpoint: what the thread's verifier has goes into the driver's
    simp only [St.keep, Stream.St.goto, Function.update_self]
    refine h.move haccount (by rw [hnext.1]; simp) rfl fun parts combined hold => ⟨parts t, combined ++ parts t, ?_⟩
    refine hold.move rfl rfl rfl (hold.part t) (fun _ _ => rfl) ?_ ?_
    · rw [← matrix_combine, ← hold.whole, ← hold.part t]
      rfl
    · simp only [held, hnext.1, hnext.2, ← Multiset.coe_add, List.nil_append, Multiset.coe_nil, add_zero]
  · simp only [St.keep, Function.update_self]
    refine h.move haccount (by rw [hnext.1]; simp) rfl fun parts combined hold => ⟨parts t, combined, ?_⟩
    refine hold.move rfl rfl rfl (hold.part t) (fun _ _ => rfl) hold.whole ?_
    have htake : (↑(c.session.stream.stream.take k) + ↑(c.session.stream.stream.drop k) : Multiset (Fin n × Fin n)) =
        c.session.stream.stream := by rw [Multiset.coe_add, List.take_append_drop]
    simp only [held, hnext.1, hnext.2, List.nil_append]
    rw [← Multiset.coe_add]
    calc (combined : Multiset (Fin n × Fin n)) + (↑(c.session.stream.stream.take k) + ↑(parts t)) +
          ↑(c.session.stream.stream.drop k)
        = combined + parts t + (↑(c.session.stream.stream.take k) + ↑(c.session.stream.stream.drop k)) := by abel
      _ = combined + parts t + c.session.stream.stream := by rw [htake]

theorem stream_verifiers (hT : 0 < T) (h : Verifiers c) {l : Stream.Label n T} {s : Session.St P n T B} (u : Unspecified n)
    (hs : Session.streamStep priority c.session l = some s) (haccount : Session.Account 0 s) :
    Verifiers (c.keep s u (.stream l)) := by
  obtain ⟨stream, he, rfl⟩ := Option.map_eq_some_iff.1 hs
  cases l with
  | getUpdateBuffer t k => exact getUpdateBuffer_verifiers h u he haccount
  | reader t o => exact reader_verifiers h u he haccount
  | batch src dsts =>
    have hframe : stream.readers = c.session.stream.readers ∧ stream.stream = c.session.stream.stream ∧
        stream.driver = c.session.stream.driver := by
      simp only [Stream.step] at he
      split_ifs at he
      cases he
      exact ⟨rfl, rfl, rfl⟩
    simp only at haccount ⊢
    split_ifs at haccount ⊢ with hlocked
    · exact h.frame haccount rfl rfl id rfl (fun _ => id) rfl rfl (fun _ => id) id
    · exact h.frame haccount hframe.1 hframe.2.1 (fun hd => hframe.2.2 ▸ hd) rfl (fun _ => id) rfl rfl (fun _ => id) id
  | driver =>
    simp only [Stream.step] at he
    split at he
    next hd =>
      -- the threads are joined, and the algorithm gets a copy
      split_ifs at he with hall
      cases he
      obtain ⟨parts, combined, hledger⟩ := h.ledger
      have hperm := hledger.idle hall (fun t => (h.account.returned t (hall t)).1) (h.account.returned ⟨0, hT⟩ (hall _)).2
      simp only [St.keep, hd]
      refine ⟨haccount, ⟨parts, combined, hledger.frame rfl rfl rfl rfl rfl⟩, fun _ g hg => ?_, fun _ hnone => by cases hnone⟩
      cases hg
      exact holds_copy (hledger.whole.trans (matrix_perm hperm)) _
    next hd =>
      cases he
      simp only [St.keep, hd]
      exact h.frame haccount rfl rfl (fun _ => by rw [hd]; simp) rfl (fun _ => id) rfl rfl (fun _ => id) id
    next hd =>
      split_ifs at he
      cases he
      simp only [St.keep, hd]
      exact h.frame haccount rfl rfl (fun _ => by rw [hd]; simp) rfl (fun _ => id) rfl rfl (fun _ => id) id
    next => cases he

/-- what the driver does with its verifiers -/
theorem keep_verifiers (hT : 0 < T) (h : Verifiers c) {l : Session.Label n T B} {s : Session.St P n T B} (u : Unspecified n)
    (hs : Session.step priority c.session l = some s) : Verifiers (c.keep s u l) := by
  have haccount := Session.step_account hT h.account hs
  have happly : l.Apart → Verifiers { c with session := s } := by
    intro hl
    obtain ⟨hreaders, hstream, hdriver, hupdates, hhistory⟩ := Session.apart_frame hl hs
    exact h.frame haccount hreaders hstream (fun hd => hdriver ▸ hd) hupdates hhistory rfl rfl (fun _ => id) id
  cases l with
  | processStreamUntil us =>
    unfold Session.step at hs
    split_ifs at hs
    simp only [Session.act] at hs
    split_ifs at hs with hb
    cases hs
    obtain ⟨parts, combined, hledger⟩ := h.ledger
    have hret := h.account.joined (Session.not_processStream hb.1)
    have hperm := hledger.idle hret (fun t => (h.account.returned t (hret t)).1) (h.account.returned ⟨0, hT⟩ (hret _)).2
    refine ⟨haccount, ⟨fun _ => [], combined, fun t => rfl, hledger.whole, ?_⟩, fun hd => absurd rfl hd, fun hd => absurd rfl hd⟩
    simp only [St.keep, held, List.nil_append, Multiset.coe_nil, Finset.sum_const_zero, add_zero, updates,
      Multiset.coe_add, Multiset.coe_eq_coe]
    exact (hperm.append_right us).trans List.perm_append_comm
  | prepQuery =>
    unfold Session.step at hs
    split_ifs at hs
    simp only [Session.act] at hs
    split_ifs at hs with hb
    cases hs
    exact h.frame haccount rfl rfl (fun _ => Session.not_processStream hb.1) rfl (fun _ => id) rfl rfl (fun _ => id) id
  | stream l =>
    unfold Session.step at hs
    split_ifs at hs
    exact stream_verifiers hT h u hs haccount
  | querier o => exact (happly trivial).withCheck none
  | query q => exact happly trivial
  | team t o => exact happly trivial
  | join => exact happly trivial
  | boruvka owner => exact happly trivial
  | emulate l => exact happly trivial
  | finish => exact happly trivial

/-- the algorithm's verifier is asked, and goes on to hold what it held -/
theorem Verifiers.asked (h : Verifiers c) {check : Check n} (hcheck : Harmless check) {g : GraphVerifier n}
    (hg : c.given = some g) {alarm : Option VerifierException} :
    Verifiers { c with given := some (check g).1, alarm := alarm } := by
  obtain ⟨parts, combined, hledger⟩ := h.ledger
  refine ⟨h.account, ⟨parts, combined, hledger.frame rfl rfl rfl rfl rfl⟩, fun hd g' hg' => ?_, fun _ hnone => by cases hnone⟩
  cases hg'
  exact hcheck g _ (h.given hd g hg)

theorem keep_given {l : Session.Label n T B} (hl : l.Apart) (c : St P n T B) (s : Session.St P n T B) (u : Unspecified n) :
    (c.keep s u l).given = c.given := by
  cases l with
  | processStreamUntil | prepQuery | stream => exact hl.elim
  | query | querier | team | join | boruvka | emulate | finish => rfl

theorem step_verifiers (hT : 0 < T) (h : Verifiers c) {l : Label n T B} (hs : step priority c l = some c') : Verifiers c' := by
  cases l with
  | session l u =>
    obtain ⟨-, -, -, s, hstep, ⟨-, rfl⟩ | ⟨check, g, hcheck, hg, ⟨-, rfl⟩ | ⟨x, -, rfl⟩⟩⟩ := session_cases hs
    · exact keep_verifiers hT h u hstep
    · obtain ⟨hapart, hharmless⟩ := harmless_of_asked hcheck
      exact (keep_verifiers hT h u hstep).asked hharmless ((keep_given hapart c s u).trans hg)
    · exact h.asked (harmless_of_asked hcheck).2 hg
  | checkBegin owner =>
    obtain ⟨-, -, -, rfl⟩ := checkBegin_cases hs
    exact h.withCheck _
  | checkTeam t o =>
    obtain ⟨-, q, eager, -, -, rfl⟩ := checkTeam_cases hs
    exact h.frame (h.account.frame rfl rfl rfl rfl rfl rfl rfl) rfl rfl id rfl (fun _ => id) rfl rfl (fun _ => id) id
  | checkJoin =>
    obtain ⟨-, q, thr, parentArr, eager, g, -, -, hg, ⟨-, rfl⟩ | ⟨x, -, rfl⟩⟩ := checkJoin_cases hs
    · exact (h.withCheck (some eager.query)).asked (fun g us hg => hg.verifyConnectedComponents (countFixed parentArr)) hg
    · exact h.asked (fun g us hg => hg.verifyConnectedComponents (countFixed parentArr)) hg

/-! ## Sessions -/

theorem verifiers_start (u : Unspecified n) : Verifiers (start P n T B u) := by
  refine ⟨Session.account_begins .new, ⟨fun _ => [], [], fun t => rfl, rfl, ?_⟩, fun _ g hg => (by cases hg), fun _ _ us hus => ?_⟩
  · simp [start, Session.start, Session.startOf, held, updates]
  · simp [start, Session.start, Session.startOf] at hus

/-- **The verifiers of a session.** Whatever the queries answer: when `process_stream_until` is not running, `check_verifier`
accepts a verifier, made in any way, if and only if the updates handed over and those it has seen have the same edges an odd
number of times; and the algorithm's verifier has, in every sequence of calls, the verdicts of a new one that has been given
the updates handed over one by one. There is no such verifier only as long as `process_stream_until` has not been called. -/
theorem verifiers_exact (hT : 0 < T) (u : Unspecified n) {ls : List (Label n T B)}
    (hs : exec (step priority) (start P n T B u) ls = some c) (hd : c.session.stream.driver ≠ .processStream) :
    (∀ expected edges, Seen expected edges →
      (checkVerifier c expected = .ok () ↔ oddEdges (updates c.session.history) = oddEdges edges)) ∧
    (∀ g ∈ c.given, ∀ (priority : Fin n → ℕ) (kruskalCcs : ℕ) (ms ms' : List (GraphVerifier.Label n)),
      ms'.map GraphVerifier.Label.call = ms.map GraphVerifier.Label.call →
        g.verdicts ms' = ((new priority kruskalCcs).afterUpdates (updates c.session.history)).verdicts ms) ∧
    (c.given = none → ∀ us, .updates us ∉ c.session.history) := by
  have h : Verifiers c := exec_invariant _ (fun _ _ _ h hs => step_verifiers hT h hs) (verifiers_start u) hs
  refine ⟨fun expected edges hseen => ?_, fun g hg priority kruskalCcs ms ms' hms => ?_, h.handed hd⟩
  · rw [← matrix_eq_iff, ← h.whole hT hd, ← hseen.adjMatrix, checkVerifier]
    split_ifs with hne
    · exact iff_of_false (fun hok => by cases hok) hne
    · exact iff_of_true rfl (not_not.1 hne)
  · exact (h.given hd g hg).verdicts priority kruskalCcs hms

/-- the set of vertex 0 has `ws`, the others are empty -/
def pairUnspecified (ws : List (Fin 2)) : Unspecified 2 :=
  ⟨fun _ _ => 7, fun _ => 0, fun v => if v = Threads.fst then ws else []⟩

/-- a session, whose step number k puts the edge into the forest -/
def pairSteps (k : ℕ) (ls : List (Session.Label 2 2 2)) : List (Label 2 2 2) :=
  ((ls.take k).map fun l => .session l (pairUnspecified [])) ++
    (ls.drop k).map fun l => .session l (pairUnspecified [Threads.snd])

theorem verifiers_exact_pair : ∃ c, exec (step Emulation.pairPriority) (start Emulation.pair 2 2 2 (pairUnspecified []))
    (pairSteps 16 Session.pairIngest) = some c ∧ checkVerifier c seenEdge = .ok () := by
  have hrun : ∃ c ∈ exec (step Emulation.pairPriority) (start Emulation.pair 2 2 2 (pairUnspecified []))
      (pairSteps 16 Session.pairIngest),
      c.session.stream.driver = .ready false ∧ updates c.session.history = List.replicate 3 (Threads.fst, Threads.snd) := by
    decide +kernel
  obtain ⟨c, hc, hready, hupdates⟩ := hrun
  have hseen : Seen seenEdge [(Threads.fst, Threads.snd)] := (Seen.new (fun _ => 7) 0).call ⟨fun _ _ => 7, .edgeUpdate 0 1⟩
  refine ⟨c, hc, ((verifiers_exact (by norm_num) _ hc (by rw [hready]; simp)).1 _ _ hseen).2 ?_⟩
  rw [hupdates]
  decide

end Checked

end GraphStreamingCC
