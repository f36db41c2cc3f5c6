/-
What a query leaves behind (src/cc_sketch_alg.cpp: `connected_components`, `calc_spanning_forest`, `point_query`).

Calls of the update entry points and queries follow one another. A query that finds no cached answer runs
`boruvka_emulation`, as the machine of `Boruvka.Emulation`; behind it the sample state of the vertex sketches is reset,
on both exits. The union-find outside of queries is in `Ingest.EagerDsu`; here only the flags of the cache are kept, and
whether an update gives the cache up is the label's choice.

`boruvka_emulation` sets `update_locked` at its begin and clears it at its end, so an exception leaves it set
(`stays_locked`). `usable_iff`: everything else is put back on both exits, and updates are accepted again if and only if
no round `num_samples` is begun.
-/
import GraphStreamingCC.Boruvka.Emulation
import GraphStreamingCC.Ingest.Model

namespace GraphStreamingCC.Query

open Runs Ingest Boruvka

variable {P : Params} {n T W : ℕ}

/-! ## The algorithm between two calls -/

structure Alg (P : Params) (n W : ℕ) where
  sketches : Fin n → Sketch P
  deltaSketches : Fin W → Sketch P
  dsuValid : Bool
  sharedDsuValid : Bool
  updateLocked : Bool
  lastQueryRounds : ℕ

/-- the two constructors: empty sketches, or the ones of a file -/
inductive Constructed : Alg P n W → Prop
  | fresh (delta : Fin W → Sketch P) : Constructed ⟨fun _ => .empty P, delta, true, true, false, 0⟩
  | deserialized (buckets : Fin n → Content P) (delta : Fin W → Sketch P) :
    Constructed ⟨fun v => ⟨0, buckets v⟩, delta, false, false, false, 0⟩

namespace Alg

/-- an update call of worker w, run to its end; in `update`, the statements behind `pre_insert` -/
def call (a : Alg P n W) (w : Fin W) : Call P n → Alg P n W × Outcome
  | .applyUpdateBatch src dsts =>
    if a.updateLocked then (a, .updateLocked)
    else
      let delta := dsts.foldl (fun delta dst => delta.update (edgeIdx src dst)) (a.deltaSketches w).zeroContents
      ({ a with
        deltaSketches := Function.update a.deltaSketches w delta
        sketches := Function.update a.sketches src ((a.sketches src).merge delta) }, .returned)
  | .applyRawBucketsUpdate src raw =>
    ({ a with sketches := Function.update a.sketches src ((a.sketches src).mergeRawBucketBuffer raw) }, .returned)
  | .update src dst => ({ a with sketches := Ingest.update a.sketches (src, dst) }, .returned)

/-- `pre_insert`; `invalidates` if the update deletes an edge of the spanning forest -/
def preInsert (a : Alg P n W) (invalidates : Bool) : Alg P n W :=
  if a.dsuValid && invalidates then { a with dsuValid := false, sharedDsuValid := false } else a

end Alg

inductive Kind (n : ℕ) where
  | connectedComponents
  | calcSpanningForest
  | pointQuery (a b : Fin n)

/-- the test for a cached answer -/
def Alg.cached (a : Alg P n W) : Kind n → Bool
  | .connectedComponents | .calcSpanningForest => a.sharedDsuValid
  | .pointQuery .. => a.dsuValid

inductive Phase (P : Params) (n T : ℕ) where
  | idle
  /-- in `boruvka_emulation`; `owner` is the schedule of round 0 -/
  | boruvka (owner : Fin n → Fin T) (e : Emulation.St P n T)

instance : (p : Phase P n T) → Decidable (p = .idle)
  | .idle => isTrue rfl
  | .boruvka .. => isFalse fun h => by cases h

/-- how a query ends -/
inductive QueryEnd where
  | returned
  | threw (err : OutOfSamplesException)
deriving DecidableEq, Repr

structure St (P : Params) (n T W : ℕ) where
  alg : Alg P n W
  phase : Phase P n T
  /-- the end of the last query -/
  ended : Option QueryEnd

inductive Label (P : Params) (n T W : ℕ) where
  | preInsert (invalidates : Bool)
  | call (w : Fin W) (c : Call P n)
  | query (kind : Kind n) (owner : Fin n → Fin T)
  /-- a step of `boruvka_emulation` -/
  | emulate (l : Emulation.Label n T)
  /-- what comes behind `boruvka_emulation` -/
  | finish

def step (priority : Fin n → ℕ) (s : St P n T W) (l : Label P n T W) : Option (St P n T W) :=
  match l, s.phase with
  | .preInsert invalidates, .idle => some { s with alg := s.alg.preInsert invalidates }
  | .call w c, .idle => some { s with alg := (s.alg.call w c).1 }
  | .query kind owner, .idle =>
    some (if s.alg.cached kind then { s with ended := some .returned }
      else
        { s with
          alg := { s.alg with updateLocked := true }
          phase := .boruvka owner (Emulation.start owner s.alg.sketches) })
  | .emulate l, .boruvka owner e => (Emulation.step owner priority e l).map fun e' => { s with phase := .boruvka owner e' }
  | .finish, .boruvka _ e =>
    match e.phase with
    | .returned lastQueryRounds w =>
      some ⟨{ s.alg with
        sketches := fun v => (w.sketches v).resetSampleState
        dsuValid := true
        sharedDsuValid := true
        updateLocked := false
        lastQueryRounds := lastQueryRounds }, .idle, some .returned⟩
    | .threw err w => some ⟨{ s.alg with sketches := fun v => (w.sketches v).resetSampleState }, .idle, some (.threw err)⟩
    | .round .. | .create .. => none
  | _, _ => none

def start (a : Alg P n W) : St P n T W := ⟨a, .idle, none⟩

/-! ## The invariant -/

/-- no call of an update entry point touches a flag or a sample index -/
theorem call_frame (a : Alg P n W) (w : Fin W) (c : Call P n) : (a.call w c).1.dsuValid = a.dsuValid ∧
    (a.call w c).1.sharedDsuValid = a.sharedDsuValid ∧ (a.call w c).1.updateLocked = a.updateLocked ∧
    ((∀ v, (a.sketches v).sampleIdx = 0) → ∀ v, ((a.call w c).1.sketches v).sampleIdx = 0) := by
  have hupdate : ∀ {sketches : Fin n → Sketch P} (u : Fin n) {skt : Sketch P}, (∀ v, (sketches v).sampleIdx = 0) →
      skt.sampleIdx = (sketches u).sampleIdx → ∀ v, (Function.update sketches u skt v).sampleIdx = 0 := fun u skt h hskt =>
    Threads.forall_update (Q := fun _ (s : Sketch P) => s.sampleIdx = 0) h (hskt.trans (h u))
  cases c with
  | applyUpdateBatch src dsts =>
    simp only [Alg.call]
    split_ifs
    · exact ⟨rfl, rfl, rfl, id⟩
    · exact ⟨rfl, rfl, rfl, fun h => hupdate src h rfl⟩
  | applyRawBucketsUpdate src raw => exact ⟨rfl, rfl, rfl, fun h => hupdate src h rfl⟩
  | update src dst => exact ⟨rfl, rfl, rfl, fun h => hupdate dst (hupdate src h rfl) rfl⟩

theorem preInsert_frame (a : Alg P n W) (invalidates : Bool) : (a.preInsert invalidates).sketches = a.sketches ∧
    (a.preInsert invalidates).updateLocked = a.updateLocked ∧
    (a.sharedDsuValid = a.dsuValid → (a.preInsert invalidates).sharedDsuValid = (a.preInsert invalidates).dsuValid) ∧
    (a.dsuValid = false → (a.preInsert invalidates).dsuValid = false) := by
  unfold Alg.preInsert
  split_ifs
  · exact ⟨rfl, rfl, fun _ => rfl, fun _ => rfl⟩
  · exact ⟨rfl, rfl, id, id⟩

/-- between two calls, and in `boruvka_emulation`; the flags of the cache agree -/
def Inv (priority : Fin n → ℕ) (s : St P n T W) : Prop :=
  s.alg.sharedDsuValid = s.alg.dsuValid ∧ (∀ v, (s.alg.sketches v).sampleIdx = 0) ∧
    match s.phase with
    | .idle => s.alg.updateLocked = true → s.alg.dsuValid = false
    | .boruvka owner e =>
      s.alg.updateLocked = true ∧ s.alg.dsuValid = false ∧ Emulation.Inv owner priority s.alg.sketches e

section run

variable {priority : Fin n → ℕ} {s s' : St P n T W} {a : Alg P n W}

theorem inv_start (ha : Constructed a) : Inv priority (start a : St P n T W) := by
  cases ha with
  | fresh delta => exact ⟨rfl, fun _ => rfl, fun h => by cases h⟩
  | deserialized buckets delta => exact ⟨rfl, fun _ => rfl, fun h => by cases h⟩

theorem Inv.cached (h : Inv priority s) (kind : Kind n) : s.alg.cached kind = s.alg.dsuValid := by
  cases kind with
  | connectedComponents | calcSpanningForest => exact h.1
  | pointQuery a b => rfl

variable (hn : n < 2 ^ 32) (hT : 0 < T) (hTn : T ≤ n)
include hn hT hTn

theorem inv_step (h : Inv priority s) {l : Label P n T W} (hs : step priority s l = some s') : Inv priority s' := by
  unfold step at hs
  have hinv := h
  obtain ⟨hflags, hidx, hphase⟩ := h
  split at hs
  next invalidates hidle =>
    cases hs
    rw [hidle] at hphase
    obtain ⟨hsketches, hlocked, hagree, hinvalid⟩ := preInsert_frame s.alg invalidates
    refine ⟨hagree hflags, hsketches ▸ hidx, ?_⟩
    simp only [hidle, hlocked]
    exact fun hl => hinvalid (hphase hl)
  next w c hidle =>
    cases hs
    rw [hidle] at hphase
    obtain ⟨hv, hshared, hlocked, hsamples⟩ := call_frame s.alg w c
    refine ⟨hshared.trans (hflags.trans hv.symm), hsamples hidx, ?_⟩
    simp only [hidle, hlocked, hv]
    exact hphase
  next kind owner hidle =>
    have hcached := hinv.cached kind
    rw [hidle] at hphase
    by_cases hc : s.alg.cached kind = true
    · rw [if_pos hc] at hs
      cases hs
      refine ⟨hflags, hidx, ?_⟩
      simp only [hidle]
      exact hphase
    · rw [if_neg hc] at hs
      cases hs
      exact ⟨hflags, hidx, rfl, by simpa [hcached] using hc, Emulation.inv_start hn hT hTn hidx⟩
  next l owner e he =>
    obtain ⟨e', hstep, rfl⟩ := Option.map_eq_some_iff.1 hs
    rw [he] at hphase
    exact ⟨hflags, hidx, hphase.1, hphase.2.1, Emulation.inv_step hn (hT.trans_le hTn) hT hTn hphase.2.2 hstep⟩
  next owner e he =>
    rw [he] at hphase
    split at hs
    next k w hret =>
      cases hs
      exact ⟨rfl, fun _ => rfl, fun hl => by cases hl⟩
    next err w hthrew =>
      cases hs
      exact ⟨hflags, fun _ => rfl, fun _ => hphase.2.1⟩
    next => cases hs
    next => cases hs
  next => cases hs

theorem run_inv (ha : Constructed a) {ls : List (Label P n T W)} (hs : exec (step priority) (start a) ls = some s) :
    Inv priority s :=
  exec_invariant _ (fun _ _ _ h hs => inv_step hn hT hTn h hs) (inv_start ha) hs

end run

/-! ## What is left behind -/

namespace Alg

/-- update calls one after another, with their outcomes -/
def calls (a : Alg P n W) : List (Fin W × Call P n) → Alg P n W × List Outcome
  | [] => (a, [])
  | (w, c) :: cs =>
    let x := a.call w c
    let y := x.1.calls cs
    (y.1, x.2 :: y.2)

/-- the calls see the sketches and the lock only -/
theorem call_congr {a b : Alg P n W} (hs : a.sketches = b.sketches) (hd : a.deltaSketches = b.deltaSketches)
    (hl : a.updateLocked = b.updateLocked) (w : Fin W) (c : Call P n) :
    (a.call w c).1.sketches = (b.call w c).1.sketches ∧ (a.call w c).1.deltaSketches = (b.call w c).1.deltaSketches ∧
      (a.call w c).2 = (b.call w c).2 := by
  cases c with
  | applyUpdateBatch src dsts =>
    simp only [call, hs, hd, hl]
    split_ifs
    · exact ⟨hs, hd, rfl⟩
    · exact ⟨rfl, rfl, rfl⟩
  | applyRawBucketsUpdate src raw => exact ⟨by simp only [call, hs], hd, rfl⟩
  | update src dst => exact ⟨by simp only [call, hs], hd, rfl⟩

theorem calls_congr {a b : Alg P n W} (hs : a.sketches = b.sketches) (hd : a.deltaSketches = b.deltaSketches)
    (hl : a.updateLocked = b.updateLocked) (cs : List (Fin W × Call P n)) :
    (a.calls cs).1.sketches = (b.calls cs).1.sketches := by
  induction cs generalizing a b with
  | nil => exact hs
  | cons x cs ih =>
    obtain ⟨h1, h2, -⟩ := call_congr hs hd hl x.1 x.2
    exact ih h1 h2 ((call_frame a x.1 x.2).2.2.1.trans (hl.trans (call_frame b x.1 x.2).2.2.1.symm))

/-- without the lock, every call returns -/
theorem calls_returned {a : Alg P n W} (hl : a.updateLocked = false) (cs : List (Fin W × Call P n)) :
    ∀ o ∈ (a.calls cs).2, o = .returned := by
  induction cs generalizing a with
  | nil =>
    intro o ho
    cases ho
  | cons x cs ih =>
    intro o ho
    rcases List.mem_cons.1 ho with rfl | ho
    · cases x.2 with
      | applyUpdateBatch src dsts => simp only [call, hl, Bool.false_eq_true, if_false]
      | applyRawBucketsUpdate | update => rfl
    · exact ih ((call_frame a x.1 x.2).2.2.1.trans hl) o ho

end Alg

/-- the algorithm is as usable after the query as it was before: the vertex sketches have the same contents and sample
index 0, all later update calls return and leave the sketches that they would have left without the query, and an
exception has not marked an answer as cached -/
structure Usable (before after : Alg P n W) (e : QueryEnd) : Prop where
  buckets : ∀ v, (after.sketches v).buckets = (before.sketches v).buckets
  sampleIdx : ∀ v, (after.sketches v).sampleIdx = 0
  accepted : ∀ cs, ∀ o ∈ (after.calls cs).2, o = .returned
  applied : ∀ cs, (after.calls cs).1.sketches = (Alg.calls { before with updateLocked := false } cs).1.sketches
  uncached : ∀ err, e = .threw err → ∀ kind, after.cached kind = false

/-- the round that `boruvka_emulation` begins when it joins its threads -/
def Phase.nextRound : Phase P n T → Option ℕ
  | .boruvka _ ⟨roundNum, .create .., _⟩ => some (roundNum + 1)
  | .boruvka .. | .idle => none

/-- the step begins no round `num_samples` -/
def WithinSamples (s : St P n T W) : Label P n T W → Prop
  | .query kind _ => s.alg.cached kind = true ∨ 0 < P.numSamples
  | .emulate .join => ∀ r ∈ s.phase.nextRound, r < P.numSamples
  | .emulate (.thread ..) | .emulate (.create _) | .preInsert _ | .call .. | .finish => True

instance (s : St P n T W) : (l : Label P n T W) → Decidable (WithinSamples s l)
  | .query kind _ => inferInstanceAs (Decidable (s.alg.cached kind = true ∨ 0 < P.numSamples))
  | .emulate .join => inferInstanceAs (Decidable (∀ r ∈ s.phase.nextRound, r < P.numSamples))
  | .emulate (.thread ..) | .emulate (.create _) | .preInsert _ | .call .. | .finish => inferInstanceAs (Decidable True)

/-- the labels of a query in progress -/
def Label.InQuery : Label P n T W → Prop
  | .emulate _ | .finish => True
  | .preInsert _ | .call .. | .query .. => False

section query

variable {priority : Fin n → ℕ} {s s' : St P n T W} {a : Alg P n W}

/-- a step of `boruvka_emulation` is in the same round, or begins the next one -/
theorem roundNum_step {owner : Fin n → Fin T} {e e' : Emulation.St P n T} {l : Emulation.Label n T}
    (hs : Emulation.step owner priority e l = some e') : e'.roundNum = e.roundNum ∨
      l = .join ∧ e'.roundNum = e.roundNum + 1 ∧ ∃ w c, e.phase = .create w c := by
  cases l with
  | thread t o =>
    simp only [Emulation.step] at hs
    split at hs
    next =>
      obtain ⟨w', -, rfl⟩ := Option.map_eq_some_iff.1 hs
      exact .inl rfl
    all_goals cases hs
  | create l =>
    simp only [Emulation.step] at hs
    split at hs
    next =>
      obtain ⟨c', -, rfl⟩ := Option.map_eq_some_iff.1 hs
      exact .inl rfl
    all_goals cases hs
  | join =>
    rcases Emulation.join_cases hs with ⟨mergeInstr, w, -, -, hcase⟩ | ⟨w, c, hphase, -, rfl⟩
    · rcases hcase with ⟨e, -, rfl⟩ | ⟨-, -, rfl⟩ | ⟨-, -, rfl⟩ <;> exact .inl rfl
    · exact .inr ⟨rfl, rfl, w, c, hphase⟩

theorem nextRound_round {owner : Fin n → Fin T} {e : Emulation.St P n T} {mergeInstr : Fin n → MergeInstr n}
    {w : Boruvka.St P n T} (h : e.phase = .round mergeInstr w) : (Phase.boruvka owner e).nextRound = none := by
  cases e
  cases h
  rfl

theorem nextRound_create {owner : Fin n → Fin T} {e : Emulation.St P n T} {w : Boruvka.St P n T} {c : Create.St n T}
    (h : e.phase = .create w c) : (Phase.boruvka owner e).nextRound = some (e.roundNum + 1) := by
  cases e
  cases h
  rfl

/-- the condition on a step of `boruvka_emulation`: it does not leave the rounds before round `num_samples` -/
theorem within_step {owner : Fin n → Fin T} {e e' : Emulation.St P n T} (he : s.phase = .boruvka owner e)
    {l : Emulation.Label n T} (hs : Emulation.step owner priority e l = some e') : e.roundNum ≤ e'.roundNum ∧
      (e.roundNum < P.numSamples → (WithinSamples s (.emulate l) ↔ e'.roundNum < P.numSamples)) := by
  rcases roundNum_step hs with hsame | ⟨rfl, hnext, w, c, hphase⟩
  · refine ⟨hsame.ge, fun hlt => iff_of_true ?_ (hsame ▸ hlt)⟩
    cases l with
    | thread | create => trivial
    | join =>
      -- not the step into the next round
      rcases Emulation.join_cases hs with ⟨mergeInstr, w, hround, -⟩ | ⟨w, c, -, -, rfl⟩
      · intro r hr
        rw [he, nextRound_round hround] at hr
        cases hr
      · exact absurd hsame (Nat.succ_ne_self _)
  · rw [hnext]
    refine ⟨Nat.le_succ _, fun _ => ?_⟩
    rw [WithinSamples, he, nextRound_create hphase]
    exact ⟨fun h => h _ rfl, fun h r hr => by cases hr; exact h⟩

/-- the step of a query in progress -/
theorem inQuery_cases {owner : Fin n → Fin T} {e : Emulation.St P n T} (he : s.phase = .boruvka owner e) {l : Label P n T W}
    (hs : step priority s l = some s') :
    (∃ l' e', l = .emulate l' ∧ Emulation.step owner priority e l' = some e' ∧ s' = { s with phase := .boruvka owner e' }) ∨
    (∃ k w, l = .finish ∧ e.phase = .returned k w ∧ s' = ⟨{ s.alg with
      sketches := fun v => (w.sketches v).resetSampleState, dsuValid := true, sharedDsuValid := true, updateLocked := false,
      lastQueryRounds := k }, .idle, some .returned⟩) ∨
    ∃ err w, l = .finish ∧ e.phase = .threw err w ∧
      s' = ⟨{ s.alg with sketches := fun v => (w.sketches v).resetSampleState }, .idle, some (.threw err)⟩ := by
  unfold step at hs
  rw [he] at hs
  split at hs
  next h => cases h
  next h => cases h
  next h => cases h
  next l' owner' e' h =>
    cases h
    obtain ⟨e', hstep, rfl⟩ := Option.map_eq_some_iff.1 hs
    exact .inl ⟨l', e', rfl, hstep, rfl⟩
  next owner' e' h =>
    cases h
    split at hs
    next k w hret =>
      cases hs
      exact .inr (.inl ⟨k, w, rfl, hret, rfl⟩)
    next err w hthrew =>
      cases hs
      exact .inr (.inr ⟨err, w, rfl, hthrew, rfl⟩)
    next => cases hs
    next => cases hs
  next => cases hs

/-- what comes of a query: the sketches are put back on both exits; it returns unlocked, within the samples, or it
throws locked, and then some step was not within them -/
structure Ends (priority : Fin n → ℕ) (s s' : St P n T W) (e : Emulation.St P n T) (ms : List (Label P n T W)) : Prop where
  buckets : ∀ v, (s'.alg.sketches v).buckets = (s.alg.sketches v).buckets
  sampleIdx : ∀ v, (s'.alg.sketches v).sampleIdx = 0
  delta : s'.alg.deltaSketches = s.alg.deltaSketches
  exit : s'.ended = some .returned ∧ s'.alg.updateLocked = false ∧ e.roundNum < P.numSamples ∧
      Meets (step priority) WithinSamples s ms ∨
    (∃ err, s'.ended = some (.threw err)) ∧ s'.alg.updateLocked = true ∧ s'.alg.dsuValid = false ∧
      s'.alg.sharedDsuValid = false ∧ (e.roundNum < P.numSamples → ¬ Meets (step priority) WithinSamples s ms)

theorem idle_inQuery {ms : List (Label P n T W)} (hidle : s.phase = .idle) (hms : ∀ l ∈ ms, l.InQuery)
    (hs : exec (step priority) s ms = some s') : ms = [] ∧ s' = s := by
  cases ms with
  | nil =>
    cases hs
    exact ⟨rfl, rfl⟩
  | cons l ms =>
    obtain ⟨s₁, hs₁, -⟩ := exec_cons_some _ hs
    have hl := hms l List.mem_cons_self
    cases l with
    | emulate l => simp [step, hidle] at hs₁
    | finish => simp [step, hidle] at hs₁
    | preInsert | call | query => exact hl.elim

variable (hn : n < 2 ^ 32) (hT : 0 < T) (hTn : T ≤ n)
include hn hT hTn

/-- the run of a query from inside `boruvka_emulation` to its end -/
theorem run_ends {owner : Fin n → Fin T} {e : Emulation.St P n T} {ms : List (Label P n T W)} (h : Inv priority s)
    (he : s.phase = .boruvka owner e) (hms : ∀ l ∈ ms, l.InQuery) (hs : exec (step priority) s ms = some s')
    (hidle : s'.phase = .idle) : Ends priority s s' e ms := by
  induction ms generalizing s e with
  | nil =>
    cases hs
    rw [he] at hidle
    cases hidle
  | cons l ms ih =>
    obtain ⟨s₁, hs₁, hrest⟩ := exec_cons_some _ hs
    have hms' : ∀ l ∈ ms, l.InQuery := fun l' hl' => hms l' (List.mem_cons_of_mem l hl')
    have h₁ := inv_step hn hT hTn h hs₁
    have hphase := h.2.2
    rw [he] at hphase
    obtain ⟨hlocked, hvalid, hemu⟩ := hphase
    rcases inQuery_cases he hs₁ with ⟨l', e', rfl, hstep, rfl⟩ | ⟨k, w, rfl, hret, rfl⟩ | ⟨err, w, rfl, hthrew, rfl⟩
    · -- within `boruvka_emulation`
      have hends := ih h₁ rfl hms' hrest
      obtain ⟨hle, hwithin⟩ := within_step he hstep
      refine ⟨hends.buckets, hends.sampleIdx, hends.delta, hends.exit.imp ?_ ?_⟩
      · intro hret
        obtain ⟨hended, hunlocked, hlt, hmeets⟩ := hret
        have hlt' : e.roundNum < P.numSamples := hle.trans_lt hlt
        exact ⟨hended, hunlocked, hlt', (meets_cons _ ms hs₁).2 ⟨(hwithin hlt').2 hlt, hmeets⟩⟩
      · intro hthrew
        obtain ⟨hended, hlocked', hvalid', hshared', hnot⟩ := hthrew
        refine ⟨hended, hlocked', hvalid', hshared', fun hlt hmeets => ?_⟩
        obtain ⟨hw, hrest'⟩ := (meets_cons _ ms hs₁).1 hmeets
        exact hnot ((hwithin hlt).1 hw) hrest'
    · obtain ⟨rfl, rfl⟩ := idle_inQuery rfl hms' hrest
      rw [Emulation.Inv, hret] at hemu
      refine ⟨fun v => hemu.2.2.2 v, fun _ => rfl, rfl, .inl ⟨rfl, rfl, hemu.1.trans_lt hemu.2.1, trivial, fun _ _ => trivial⟩⟩
    · obtain ⟨rfl, rfl⟩ := idle_inQuery rfl hms' hrest
      rw [Emulation.Inv, hthrew] at hemu
      refine ⟨fun v => hemu.2.2 v, fun _ => rfl, rfl, .inr ⟨⟨err, rfl⟩, hlocked, hvalid, h.1.trans hvalid, fun hlt => ?_⟩⟩
      exact absurd hemu.1 hlt.ne

/-- **A query leaves the algorithm usable** if and only if it begins no round `num_samples`; in particular if the answer
is cached. Whatever the calls and queries before it were, and whatever the schedules are: from the call of a query to
its end. -/
theorem usable_iff (hW : 0 < W) (ha : Constructed a) {ls : List (Label P n T W)}
    (hs : exec (step priority) (start a) ls = some s) (hidle : s.phase = .idle) {kind : Kind n} {owner : Fin n → Fin T}
    {ms : List (Label P n T W)} (hms : ∀ l ∈ ms, l.InQuery)
    (hq : exec (step priority) s (.query kind owner :: ms) = some s') (hidle' : s'.phase = .idle) :
    ∃ e, s'.ended = some e ∧
      (Usable s.alg s'.alg e ↔ Meets (step priority) WithinSamples s (.query kind owner :: ms)) := by
  have h := run_inv hn hT hTn ha hs
  obtain ⟨s₁, hs₁, hrest⟩ := exec_cons_some _ hq
  rw [meets_cons _ ms hs₁]
  have hs₁' := hs₁
  simp only [step, hidle, Option.some.injEq] at hs₁'
  by_cases hc : s.alg.cached kind = true
  · -- the answer is cached
    rw [if_pos hc] at hs₁'
    subst hs₁'
    obtain ⟨rfl, rfl⟩ := idle_inQuery rfl hms hrest
    have hunlocked : s.alg.updateLocked = false := by
      rw [← Bool.not_eq_true]
      intro hl
      have hphase := h.2.2
      rw [hidle] at hphase
      rw [h.cached, hphase hl] at hc
      cases hc
    refine ⟨.returned, rfl, iff_of_true ⟨fun _ => rfl, h.2.1, Alg.calls_returned hunlocked, ?_, fun _ he => by cases he⟩
      ⟨.inl hc, trivial⟩⟩
    exact Alg.calls_congr rfl rfl hunlocked
  · rw [if_neg hc] at hs₁'
    subst hs₁'
    have hends := run_ends hn hT hTn (inv_step hn hT hTn h hs₁) rfl hms hrest hidle'
    rcases hends.exit with ⟨hended, hunlocked, hlt, hmeets⟩ | ⟨⟨err, hended⟩, hlocked, hvalid, hshared, hnot⟩
    · refine ⟨.returned, hended, iff_of_true ⟨hends.buckets, hends.sampleIdx, Alg.calls_returned hunlocked, ?_,
        fun _ he => by cases he⟩ ⟨.inr hlt, hmeets⟩⟩
      have hsketches : s'.alg.sketches = s.alg.sketches := funext fun v =>
        Sketch.ext ((hends.sampleIdx v).trans (h.2.1 v).symm) (hends.buckets v)
      exact Alg.calls_congr hsketches hends.delta hunlocked
    · refine ⟨.threw err, hended, iff_of_false (fun husable => ?_) fun hmeets => ?_⟩
      · -- a call of `apply_update_batch` throws
        have hcall := husable.accepted [(⟨0, hW⟩, .applyUpdateBatch ⟨0, hT.trans_le hTn⟩ [])] .updateLocked (by
          simp only [Alg.calls, Alg.call, hlocked, if_true]
          exact List.mem_cons_self)
        cases hcall
      · exact hnot (hmeets.1.resolve_left hc) hmeets.2

end query

/-- two vertices with empty sketches, read from a file -/
def emptyFile : Alg tiny 2 1 := ⟨fun _ => ⟨0, 0⟩, fun _ => .empty tiny, false, false, false, 0⟩

/-- a query of one thread, with one round -/
def emptyQuery : List (Label tiny 2 1 1) :=
  [.emulate (.thread (Threads.nth 0) .left), .emulate (.thread (Threads.nth 0) .left), .emulate .join, .finish]

theorem usable_iff_empty : ∃ s, exec (step fun u : Fin 2 => u.val) (start emptyFile)
    (.query .connectedComponents (fun _ => Threads.nth 0) :: emptyQuery) = some s ∧ ∃ e, Usable emptyFile s.alg e := by
  have hrun : ∃ s, exec (step fun u : Fin 2 => u.val) (start emptyFile)
      (.query .connectedComponents (fun _ => Threads.nth 0) :: emptyQuery) = some s ∧ s.phase = .idle := ⟨_, rfl, rfl⟩
  obtain ⟨s, hs, hidle⟩ := hrun
  have hms : ∀ l ∈ emptyQuery, l.InQuery := by
    simp [emptyQuery, Label.InQuery]
  obtain ⟨e, -, h⟩ := usable_iff (by norm_num) (by norm_num) (by norm_num) one_pos
    (.deserialized (fun _ => 0) fun _ => .empty tiny)
    (show exec (step _) (start emptyFile) [] = some (start emptyFile) from rfl) rfl hms hs hidle
  exact ⟨s, hs, e, h.2 (by decide +kernel)⟩

/-- every checksum is 1, so a bucket with two edges fails the check; the sizes are those of three vertices -/
def colliding : Params := ⟨fun _ _ => 1, 0, 18, 1, 3, false⟩

/-- the triangle, from the empty graph; edge 0 1 is inserted, deleted and inserted again, which gives the cached answer
up -/
def triangle : List (Label colliding 3 1 1) :=
  [.preInsert false, .preInsert false, .preInsert true, .preInsert false, .preInsert false,
    .call (Threads.nth 0) (.applyUpdateBatch (Threads.nth 0) [Threads.nth 1, Threads.nth 2, Threads.nth 1, Threads.nth 1]),
    .call (Threads.nth 0) (.applyUpdateBatch (Threads.nth 1) [Threads.nth 0, Threads.nth 2, Threads.nth 0, Threads.nth 0]),
    .call (Threads.nth 0) (.applyUpdateBatch (Threads.nth 2) [Threads.nth 0, Threads.nth 1])]

/-- a step of the only thread, in a round -/
def sampling : Label colliding 3 1 1 := .emulate (.thread (Threads.nth 0) .left)

/-- and in `create_merge_instructions` -/
def sorting : Label colliding 3 1 1 := .emulate (.create (.thread (Threads.nth 0) .left))

def barrier : Label colliding 3 1 1 := .emulate (.create .barrier)

/-- the three samples of a round fail, and no two vertices are merged -/
def failingRound : List (Label colliding 3 1 1) :=
  List.flatten [List.replicate 6 sampling, [.emulate .join], List.replicate 15 sorting,
    [.emulate (.create (.iterate (Threads.nth 0) [(Threads.nth 0, [Threads.nth 0]), (Threads.nth 1, [Threads.nth 1]),
      (Threads.nth 2, [Threads.nth 2])]))],
    List.replicate 3 sorting, [barrier], List.replicate 2 sorting, List.replicate 3 barrier, List.replicate 3 sorting,
    [.emulate .join]]

/-- eighteen rounds, and then there are no samples left -/
def failingQuery : List (Label colliding 3 1 1) :=
  (List.replicate 18 failingRound).flatten ++ List.replicate 3 sampling ++ [.emulate .join, .finish]

/-- after the exception, the next batch of updates is not accepted -/
theorem stays_locked : ∃ s s' err,
    exec (step fun u : Fin 3 => u.val) (start ⟨fun _ => .empty colliding, fun _ => .empty colliding, true, true, false, 0⟩)
      triangle = some s ∧ s.phase = .idle ∧
    exec (step fun u : Fin 3 => u.val) s (.query .connectedComponents (fun _ => Threads.nth 0) :: failingQuery) = some s' ∧
    s'.phase = .idle ∧ s'.ended = some (.threw err) ∧
    (s'.alg.call (Threads.nth 0) (.applyUpdateBatch (Threads.nth 0) [Threads.nth 1])).2 = .updateLocked ∧
    ¬ Usable s.alg s'.alg (.threw err) := by
  have hrun : ((exec (step fun u : Fin 3 => u.val)
      (start ⟨fun _ => .empty colliding, fun _ => .empty colliding, true, true, false, 0⟩) triangle).bind fun s =>
        (exec (step fun u : Fin 3 => u.val) s (.query .connectedComponents (fun _ => Threads.nth 0) :: failingQuery)).map
          fun s' => (decide (s.phase = .idle), decide (s'.phase = .idle), s'.ended,
            (s'.alg.call (Threads.nth 0) (.applyUpdateBatch (Threads.nth 0) [Threads.nth 1])).2)) =
      some (true, true, some (.threw ⟨0, 18, 18⟩), .updateLocked) := by
    decide +kernel
  obtain ⟨s, hs, hquery⟩ := Option.bind_eq_some_iff.1 hrun
  obtain ⟨s', hs', hend⟩ := Option.map_eq_some_iff.1 hquery
  simp only [Prod.mk.injEq, decide_eq_true_eq] at hend
  obtain ⟨hidle, hidle', hended, hcall⟩ := hend
  refine ⟨s, s', _, hs, hidle, hs', hidle', hended, hcall, fun h => ?_⟩
  have haccepted := h.accepted [(Threads.nth 0, .applyUpdateBatch (Threads.nth 0) [Threads.nth 1])] _ List.mem_cons_self
  rw [hcall] at haccepted
  cases haccepted

end GraphStreamingCC.Query
