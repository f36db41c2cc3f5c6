/-
What the steps of a session with worker threads do, seen from the session above.

The copies that are in data nodes, and those of the batches that are being applied, count as buffered there (`St.hold`). Only
the workers and the end of a flush look at this (`Session.step_hold`). A statement of `apply_update_batch` works on the delta
sketch, refuses the batch, or merges what the delta sketch then holds, which is the batch (`callStep_cases`).
-/
import GraphStreamingCC.Session.Crew
import GraphStreamingCC.Session.Guarded

namespace GraphStreamingCC

open Runs

/-! ## Copies on their way -/

namespace Stream

variable {P : Params} {n T : ℕ} {priority : Fin n → ℕ} {s s' : St P n T} {m : Multiset (Fin n × Fin n)}

/-- these copies are buffered too -/
def St.hold (s : St P n T) (m : Multiset (Fin n × Fin n)) : St P n T := { s with buffered := s.buffered + m }

theorem readerStep_hold (m : Multiset (Fin n × Fin n)) {t : Fin T} {o : Dsu.Side} (hs : readerStep priority s t o = some s') :
    readerStep priority (s.hold m) t o = some (s'.hold m) := by
  unfold St.hold
  cases hpc : (s.readers t).pc with
  | next =>
    cases harr : (s.readers t).updateArray with
    | nil =>
      simp only [readerStep, hpc, harr] at hs
      cases hs
    | cons e rest =>
      simp only [readerStep, hpc, harr] at hs ⊢
      obtain ⟨eager, he, rfl⟩ := Option.map_eq_some_iff.1 hs
      rw [he]
      rfl
  | preInsert e =>
    simp only [readerStep, hpc] at hs ⊢
    split_ifs at hs ⊢ with hthr
    · cases hs
      rfl
    · obtain ⟨eager, he, rfl⟩ := Option.map_eq_some_iff.1 hs
      rw [he]
      rfl
  | insertSrc e | insertDst e =>
    simp only [readerStep, hpc, Option.some.injEq] at hs ⊢
    subst hs
    simp only [St.goto, Multiset.cons_add]
  | returned =>
    simp only [readerStep, hpc] at hs
    cases hs

/-- the step neither applies a batch nor waits for the end of a flush -/
def Unheld (s : St P n T) : Label n T → Prop
  | .batch .. => False
  | .driver => s.driver ≠ .flush
  | .getUpdateBuffer .. | .reader .. => True

theorem step_hold (m : Multiset (Fin n × Fin n)) {l : Label n T} (hl : Unheld s l) (hs : step priority s l = some s') :
    step priority (s.hold m) l = some (s'.hold m) := by
  cases l with
  | batch => exact hl.elim
  | reader t o => exact readerStep_hold m hs
  | getUpdateBuffer t k =>
    unfold St.hold
    simp only [step] at hs ⊢
    split_ifs at hs ⊢ <;> cases hs <;> rfl
  | driver =>
    unfold St.hold
    simp only [step] at hs ⊢
    cases hd : s.driver with
    | flush => exact absurd hd hl
    | ready c =>
      simp only [hd] at hs
      cases hs
    | processStream =>
      simp only [hd] at hs ⊢
      split_ifs at hs ⊢
      cases hs
      rfl
    | prepQuery =>
      simp only [hd] at hs ⊢
      cases hs
      rfl

end Stream

namespace Session

variable {P : Params} {n T B : ℕ} {priority : Fin n → ℕ} {s s' : St P n T B}

/-- these copies are buffered too, and k of the copies counted have not been applied -/
def St.hold (s : St P n T B) (m : Multiset (Fin n × Fin n)) (k : ℕ) : St P n T B :=
  { s with stream := s.stream.hold m, totalUpdates := s.totalUpdates - k }

theorem St.hold_zero (s : St P n T B) : s.hold 0 0 = s := by simp [St.hold, Stream.St.hold]

def Unheld (s : St P n T B) : Label n T B → Prop
  | .stream l => Stream.Unheld s.stream l
  | _ => True

theorem streamStep_hold (m : Multiset (Fin n × Fin n)) (k : ℕ) {l : Stream.Label n T} (hl : Stream.Unheld s.stream l)
    (hs : streamStep priority s l = some s') : streamStep priority (s.hold m k) l = some (s'.hold m k) := by
  obtain ⟨stream, he, rfl⟩ := Option.map_eq_some_iff.1 hs
  have hstep : Stream.step priority (s.hold m k).stream l = some (stream.hold m) := Stream.step_hold m hl he
  rw [streamStep, hstep]
  cases l with
  | batch => exact hl.elim
  | getUpdateBuffer | reader | driver => rfl

theorem eagerStep_hold (m : Multiset (Fin n × Fin n)) (k : ℕ) {l : Eager.Label n T} (hs : eagerStep priority s l = some s') :
    eagerStep priority (s.hold m k) l = some (s'.hold m k) := by
  obtain ⟨eager, he, rfl⟩ := Option.map_eq_some_iff.1 hs
  have hstep : Eager.step priority (s.hold m k).stream.eager l = some eager := he
  rw [eagerStep, hstep]
  rfl

/-- **Copies on their way change nothing** for the steps that are not about them. -/
theorem step_hold (m : Multiset (Fin n × Fin n)) (k : ℕ) {l : Label n T B} (hl : Unheld s l)
    (hs : step priority s l = some s') : step priority (s.hold m k) l = some (s'.hold m k) := by
  have hrefused : (s.hold m k).refused = s.refused := rfl
  unfold step at hs ⊢
  rw [hrefused]
  split_ifs at hs ⊢ with hr
  cases l with
  | processStreamUntil us =>
    unfold St.hold Stream.St.hold
    simp only [act] at hs ⊢
    split_ifs at hs ⊢
    cases hs
    rfl
  | prepQuery =>
    unfold St.hold Stream.St.hold
    simp only [act] at hs ⊢
    split_ifs at hs ⊢
    cases hs
    rfl
  | stream l => exact streamStep_hold m k hl hs
  | query q =>
    have hdriver : (s.hold m k).stream.driver = s.stream.driver := rfl
    simp only [act, hdriver] at hs ⊢
    split at hs
    next => exact eagerStep_hold m k hs
    all_goals cases hs
  | querier o => exact eagerStep_hold (l := .querier o) m k hs
  | team t o => exact eagerStep_hold (l := .team t o) m k hs
  | join => exact eagerStep_hold (l := .join) m k hs
  | boruvka owner =>
    have hquery : (s.hold m k).stream.eager.query = s.stream.eager.query := rfl
    have hboruvka : (s.hold m k).boruvka = s.boruvka := rfl
    simp only [act, hquery, hboruvka] at hs ⊢
    split at hs
    · cases hs
      rfl
    · cases hs
  | emulate l =>
    have hboruvka : (s.hold m k).boruvka = s.boruvka := rfl
    simp only [act, hboruvka] at hs ⊢
    split at hs
    · obtain ⟨e, he, rfl⟩ := Option.map_eq_some_iff.1 hs
      simp only [he]
      rfl
    · cases hs
  | finish =>
    have hboruvka : (s.hold m k).boruvka = s.boruvka := rfl
    simp only [act, hboruvka] at hs ⊢
    split at hs
    next owner e hx =>
      unfold finish at hs ⊢
      split at hs
      next k' w hphase =>
        obtain ⟨eager, he, rfl⟩ := Option.map_eq_some_iff.1 hs
        have hstep : Eager.step priority (s.hold m k).stream.eager (.boruvka w.parent w.spanningForest) = some eager := he
        simp only [hstep]
        rfl
      next e' w hphase =>
        cases hs
        rfl
      all_goals cases hs
    next => cases hs

/-- the end of a flush -/
theorem step_flush (hr : s.refused = none) (hd : s.stream.driver = .flush) (hb : s.stream.buffered = 0) :
    step priority s (.stream .driver) = some { s with stream := { s.stream with driver := .ready false } } := by
  have hstep : Stream.step priority s.stream .driver = some { s.stream with driver := .ready false } := by
    simp only [Stream.step, hd, if_pos hb]
  simp only [step, hr, Option.isSome_none, Bool.false_eq_true, if_false, act, streamStep, hstep, Option.map_some]

/-- a batch is refused -/
theorem step_refuse (hr : s.refused = none) (hlocked : s.updateLocked = true) {src : Fin n} {dsts : List (Fin n)}
    (hle : Stream.batchCopies src dsts ≤ s.stream.buffered) :
    step priority s (.stream (.batch src dsts)) =
      some { s with totalUpdates := s.totalUpdates + dsts.length, refused := some (src, dsts) } := by
  simp only [step, hr, Option.isSome_none, Bool.false_eq_true, if_false, act, streamStep, Stream.step, if_pos hle,
    Option.map_some, if_pos hlocked]

/-- a batch is applied -/
theorem step_apply (hr : s.refused = none) (hlocked : s.updateLocked = false) {src : Fin n} {dsts : List (Fin n)}
    (hle : Stream.batchCopies src dsts ≤ s.stream.buffered) :
    step priority s (.stream (.batch src dsts)) =
      some { s with
        stream := { s.stream with
          sketches := Stream.applyUpdateBatch s.stream.sketches src dsts
          buffered := s.stream.buffered - Stream.batchCopies src dsts }
        totalUpdates := s.totalUpdates + dsts.length } := by
  simp only [step, hr, Option.isSome_none, Bool.false_eq_true, if_false, act, streamStep, Stream.step, if_pos hle,
    Option.map_some, hlocked]

/-- the driver and the gutters are left alone by everything but their own steps -/
theorem step_calm {l : Label n T B} (hl : (∀ us, l ≠ .processStreamUntil us) ∧ l ≠ .prepQuery ∧ ∀ k, l ≠ .stream k)
    (hs : step priority s l = some s') : s'.stream.driver = s.stream.driver ∧ s'.stream.buffered = s.stream.buffered := by
  have heager : ∀ {l : Eager.Label n T}, eagerStep priority s l = some s' →
      s'.stream.driver = s.stream.driver ∧ s'.stream.buffered = s.stream.buffered := by
    intro l he
    obtain ⟨eager, -, rfl⟩ := Option.map_eq_some_iff.1 he
    exact ⟨rfl, rfl⟩
  unfold step at hs
  split_ifs at hs
  cases l with
  | processStreamUntil us => exact absurd rfl (hl.1 us)
  | prepQuery => exact absurd rfl hl.2.1
  | stream k => exact absurd rfl (hl.2.2 k)
  | query q =>
    simp only [act] at hs
    split at hs
    next => exact heager hs
    all_goals cases hs
  | querier | team | join => exact heager hs
  | boruvka owner =>
    simp only [act] at hs
    split at hs <;> cases hs
    exact ⟨rfl, rfl⟩
  | emulate l =>
    simp only [act] at hs
    split at hs
    · obtain ⟨e, -, rfl⟩ := Option.map_eq_some_iff.1 hs
      exact ⟨rfl, rfl⟩
    · cases hs
  | finish =>
    simp only [act, finish] at hs
    split at hs
    · split at hs
      · obtain ⟨eager, -, rfl⟩ := Option.map_eq_some_iff.1 hs
        exact ⟨rfl, rfl⟩
      · cases hs
        exact ⟨rfl, rfl⟩
      all_goals cases hs
    · cases hs

/-- the count stays as it is, and `update_locked` changes only in a query without a cached answer -/
theorem step_locked (hb : ∀ x ∈ s.boruvka, ∃ q, s.stream.eager.query = .boruvka q) {l : Label n T B} (hl : Unheld s l)
    (hs : step priority s l = some s') :
    s'.totalUpdates = s.totalUpdates ∧
      (s'.updateLocked = s.updateLocked ∨ ∃ q, s.stream.eager.query = .boruvka q) := by
  have heager : ∀ {l : Eager.Label n T}, eagerStep priority s l = some s' →
      s'.totalUpdates = s.totalUpdates ∧ s'.updateLocked = s.updateLocked := by
    intro l he
    obtain ⟨eager, -, rfl⟩ := Option.map_eq_some_iff.1 he
    exact ⟨rfl, rfl⟩
  unfold step at hs
  split_ifs at hs
  cases l with
  | processStreamUntil | prepQuery =>
    simp only [act] at hs
    split_ifs at hs
    cases hs
    exact ⟨rfl, .inl rfl⟩
  | stream l =>
    obtain ⟨stream, -, rfl⟩ := Option.map_eq_some_iff.1 hs
    cases l with
    | batch => exact hl.elim
    | getUpdateBuffer | reader | driver => exact ⟨rfl, .inl rfl⟩
  | query q =>
    simp only [act] at hs
    split at hs
    next => exact (heager hs).imp_right .inl
    all_goals cases hs
  | querier | team | join => exact (heager hs).imp_right .inl
  | boruvka owner =>
    simp only [act] at hs
    split at hs
    next q hq hnone =>
      cases hs
      exact ⟨rfl, .inr ⟨q, hq⟩⟩
    next => cases hs
  | emulate l =>
    simp only [act] at hs
    split at hs
    · obtain ⟨e, -, rfl⟩ := Option.map_eq_some_iff.1 hs
      exact ⟨rfl, .inl rfl⟩
    · cases hs
  | finish =>
    simp only [act] at hs
    split at hs
    next owner e hx =>
      refine ⟨?_, .inr (hb _ hx)⟩
      unfold finish at hs
      split at hs
      · obtain ⟨eager, -, rfl⟩ := Option.map_eq_some_iff.1 hs
        rfl
      · cases hs
        rfl
      all_goals cases hs
    next => cases hs

end Session

namespace Crew

open Workers

variable {P : Params} {n T B N : ℕ} {priority : Fin n → ℕ} {c c' : St P n T B N} {i : Fin N}

/-! ## Batches -/

/-- the directed copies of a batch -/
def copiesOf (n : ℕ) (b : UpdateBatch) : Multiset (Fin n × Fin n) :=
  Multiset.ofList (b.updVec.filterMap fun d => if h : b.nodeIdx < n ∧ d < n then some (⟨b.nodeIdx, h.1⟩, ⟨d, h.2⟩) else none)

def copies (n : ℕ) (m : Multiset UpdateBatch) : Multiset (Fin n × Fin n) := m.bind (copiesOf n)

theorem copiesOf_toBatch (src : Fin n) (dsts : List (Fin n)) : copiesOf n (toBatch src dsts) = Stream.batchCopies src dsts := by
  simp [copiesOf, toBatch, Stream.batchCopies, List.filterMap_map]

/-- batches that are passed over are empty -/
theorem copies_live (batches : List (Fin n × List (Fin n))) : copies n (live (toNode batches)) = nodeCopies batches := by
  induction batches with
  | nil => rfl
  | cons b batches ih =>
    have hcons : nodeCopies (b :: batches) = copiesOf n (toBatch b.1 b.2) + nodeCopies batches := by
      rw [copiesOf_toBatch]
      rfl
    rw [hcons, ← ih]
    by_cases hb : 0 < (toBatch b.1 b.2).updVec.length
    · have hlive : live (toNode (b :: batches)) = toBatch b.1 b.2 :: live (toNode batches) := by
        simp [live, toNode, hb]
      rw [hlive, copies, ← Multiset.cons_coe, Multiset.cons_bind]
      rfl
    · have hlive : live (toNode (b :: batches)) = live (toNode batches) := by
        simp [live, toNode, hb]
      have hnil : (toBatch b.1 b.2).updVec = [] := by simpa using hb
      rw [hlive, copiesOf, hnil]
      exact (zero_add _).symm

/-! ## Calls of `apply_update_batch` -/

/-- the length of the batch -/
def callSize : Ingest.Call P n → ℕ
  | .applyUpdateBatch _ dsts => dsts.length
  | .applyRawBucketsUpdate .. | .update .. => 0

def inCall (x : Option (Ingest.Call P n × Ingest.Pc P n)) : ℕ := x.elim 0 fun x => callSize x.1

/-- the copies that have been counted and not been applied -/
def St.inCalls (c : St P n T B N) : ℕ := ∑ i, inCall (c.calls i)

/-- where a call for this batch can be, and what its delta sketch then holds -/
def Doing (locked : Bool) (delta : Sketch P) (src : Fin n) (dsts : List (Fin n)) : Ingest.Pc P n → Prop
  | .test src' dsts' => src' = src ∧ dsts' = dsts
  | .zero src' dsts' => src' = src ∧ dsts' = dsts ∧ locked = false
  | .delta src' rest => src' = src ∧ locked = false ∧ ∃ done, dsts = done ++ rest ∧
      delta.buckets = ((done.map (edgeIdx src)).foldl Sketch.update (.empty P)).buckets
  | .raw .. | .preInsert .. | .updateSrc .. | .updateDst .. => False

/-- a worker in a call is at the batch -/
def InCall (c : St P n T B N) (i : Fin N) (x : Ingest.Call P n × Ingest.Pc P n) : Prop :=
  ∃ src dsts bs, c.workers.w i = .process (toBatch src dsts :: bs) ∧ 0 < dsts.length ∧
    x.1 = .applyUpdateBatch src dsts ∧ Doing c.session.updateLocked (c.deltaSketches i) src dsts x.2

theorem calls_update (c : St P n T B N) (i : Fin N) (x : Option (Ingest.Call P n × Ingest.Pc P n)) :
    (fun j => (Function.update (fun j => (⟨[], c.calls j⟩ : Ingest.Worker P n)) i ⟨[], x⟩ j).cur) =
      Function.update c.calls i x := by
  funext j
  by_cases hj : j = i
  · subst hj
    rw [Function.update_self, Function.update_self]
  · rw [Function.update_of_ne hj, Function.update_of_ne hj]

/-- the call of worker i goes on -/
def St.goto (c : St P n T B N) (i : Fin N) (x : Option (Ingest.Call P n × Ingest.Pc P n)) (delta : Sketch P) : St P n T B N :=
  { c with deltaSketches := Function.update c.deltaSketches i delta, calls := Function.update c.calls i x }

/-- it is refused -/
def St.refuse (c : St P n T B N) (i : Fin N) (src : Fin n) (dsts : List (Fin n)) : St P n T B N :=
  { c with
    session := { c.session with refused := some (src, dsts) }
    calls := Function.update c.calls i none }

/-- it has merged the batch -/
def St.merged (c : St P n T B N) (i : Fin N) (src : Fin n) (dsts : List (Fin n)) (w : Workers.St N) : St P n T B N :=
  { c with
    session := { c.session with
      stream := { c.session.stream with sketches := Stream.applyUpdateBatch c.session.stream.sketches src dsts } }
    workers := w
    calls := Function.update c.calls i none }

/-- **One statement of `apply_update_batch`.** -/
theorem callStep_cases {src : Fin n} {dsts : List (Fin n)} {pc : Ingest.Pc P n}
    (hdoing : Doing c.session.updateLocked (c.deltaSketches i) src dsts pc)
    (hs : callStep c i (.applyUpdateBatch src dsts, pc) = some c') :
    (∃ pc' delta, Doing c.session.updateLocked delta src dsts pc' ∧
      c' = c.goto i (some (.applyUpdateBatch src dsts, pc')) delta) ∨
    (c.session.updateLocked = true ∧ c' = c.refuse i src dsts) ∨
    c.session.updateLocked = false ∧ ∃ w, workerStep c.workers i 0 = some w ∧ c' = c.merged i src dsts w := by
  cases pc with
  | raw | preInsert | updateSrc | updateDst => exact hdoing.elim
  | test src' dsts' =>
    obtain ⟨rfl, rfl⟩ := hdoing
    by_cases hlocked : c.session.updateLocked = true
    · have hcall (call : Ingest.Call P n) :
          Ingest.callStep c.ingest i call (.test src' dsts') = c.ingest.finish i call .updateLocked := if_pos hlocked
      simp only [callStep, hcall] at hs
      simp only [St.ingest, Ingest.St.finish, St.after, Option.some.injEq] at hs
      rw [calls_update] at hs
      exact .inr (.inl ⟨hlocked, hs.symm⟩)
    · have hcall (call : Ingest.Call P n) :
          Ingest.callStep c.ingest i call (.test src' dsts') = c.ingest.goto i call (.zero src' dsts') := if_neg hlocked
      simp only [callStep, hcall] at hs
      simp only [St.ingest, Ingest.St.goto, St.after, Option.some.injEq] at hs
      rw [calls_update] at hs
      refine .inl ⟨.zero src' dsts', c.deltaSketches i, ⟨rfl, rfl, by simpa using hlocked⟩, ?_⟩
      rw [St.goto, Function.update_eq_self]
      exact hs.symm
  | zero src' dsts' =>
    obtain ⟨rfl, rfl, hlocked⟩ := hdoing
    simp only [callStep, Ingest.callStep, St.ingest, Ingest.St.goto, St.after, Option.some.injEq] at hs
    rw [calls_update] at hs
    exact .inl ⟨.delta src' dsts', _, ⟨rfl, hlocked, [], rfl, rfl⟩, hs.symm⟩
  | delta src' rest =>
    obtain ⟨rfl, hlocked, done, hdsts, hdelta⟩ := hdoing
    cases rest with
    | cons dst rest =>
      simp only [callStep, Ingest.callStep, St.ingest, Ingest.St.goto, St.after, Option.some.injEq] at hs
      rw [calls_update] at hs
      refine .inl ⟨.delta src' rest, _, ⟨rfl, hlocked, done ++ [dst], by simp [hdsts], ?_⟩, hs.symm⟩
      rw [List.map_append, List.foldl_append, List.map_cons, List.map_nil, List.foldl_cons, List.foldl_nil,
        Sketch.update_buckets, Sketch.update_buckets, hdelta]
    | nil =>
      simp only [callStep, Ingest.callStep, St.ingest, Ingest.St.finish, St.after] at hs
      obtain ⟨w, hw, rfl⟩ := Option.map_eq_some_iff.1 hs
      rw [calls_update]
      refine .inr (.inr ⟨hlocked, w, hw, ?_⟩)
      have hmerge : (c.session.stream.sketches src').merge (c.deltaSketches i) =
          (c.session.stream.sketches src').merge ((dsts.map (edgeIdx src')).foldl Sketch.update (.empty P)) := by
        rw [List.append_nil] at hdsts
        simp only [Sketch.merge, hdelta, hdsts]
      rw [hmerge]
      rfl

end Crew

end GraphStreamingCC
