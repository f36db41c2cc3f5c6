/-
What `get_total_updates` counts (include/graph_sketch_driver.h).

`batch_callback` adds the length of every batch. Each update is put into the guttering system twice, once for each of its
end points, so that the count, the copies that are buffered or still to be inserted, and twice the updates that are still to
be read are twice the updates handed over. This holds in every session, whatever its queries do.
-/
import GraphStreamingCC.Session.Answers

namespace GraphStreamingCC.Session

open Boruvka Dsu Eager Runs Service

variable {P : Params} {n T B : ℕ} {priority : Fin n → ℕ} {s s' : St P n T B}

/-- the copies that a stream thread has still to insert -/
def toInsert (r : Stream.Reader n) : ℕ := 2 * r.updateArray.length + r.pc.owed.card

/-- the copies that no worker has been given yet -/
def pending (s : Stream.St P n T) : ℕ := s.buffered.card + ∑ t, toInsert (s.readers t) + 2 * s.stream.length

structure Account (base : ℕ) (s : St P n T B) : Prop where
  total : s.refused = none → s.totalUpdates + pending s.stream + 2 * base = 2 * (updates s.history).length
  returned : ∀ t, (s.stream.readers t).pc = .returned → (s.stream.readers t).updateArray = [] ∧ s.stream.stream = []
  joined : s.stream.driver ≠ .processStream → ∀ t, (s.stream.readers t).pc = .returned
  flushed : s.stream.driver = .ready false → s.stream.buffered = 0

/-- the steps that touch neither the threads of the driver nor the count -/
theorem Account.frame {base : ℕ} (h : Account base s) (hreaders : s'.stream.readers = s.stream.readers)
    (hstream : s'.stream.stream = s.stream.stream) (hbuffered : s'.stream.buffered = s.stream.buffered)
    (hdriver : s'.stream.driver = s.stream.driver) (htotal : s'.totalUpdates = s.totalUpdates)
    (hrefused : s'.refused = s.refused) (hupdates : updates s'.history = updates s.history) : Account base s' := by
  refine ⟨fun hr => ?_, fun t => ?_, fun hd => ?_, fun hd => ?_⟩
  · rw [htotal, hupdates, pending, hreaders, hstream, hbuffered]
    exact h.total (hrefused ▸ hr)
  · rw [hreaders, hstream]
    exact h.returned t
  · rw [hreaders]
    exact h.joined (hdriver ▸ hd)
  · rw [hbuffered]
    exact h.flushed (hdriver ▸ hd)

/-- between two calls of `process_stream_until` everything has been inserted -/
theorem Account.idle {base : ℕ} (hT : 0 < T) (h : Account base s) (hd : s.stream.driver ≠ .processStream) :
    ∑ t, toInsert (s.stream.readers t) = 0 ∧ s.stream.stream = [] := by
  have hret := h.joined hd
  refine ⟨Finset.sum_eq_zero fun t _ => ?_, (h.returned ⟨0, hT⟩ (hret _)).2⟩
  simp [toInsert, hret t, (h.returned t (hret t)).1, Stream.ReaderPc.owed]

/-- a stream thread moves -/
theorem sum_toInsert (readers : Fin T → Stream.Reader n) (t : Fin T) (r : Stream.Reader n) :
    ∑ t', toInsert (Function.update readers t r t') + toInsert (readers t) = ∑ t', toInsert (readers t') + toInsert r :=
  Threads.sum_update toInsert readers t r

/-- a stream thread moves, and the copies that it owes move with it -/
theorem Account.move {base : ℕ} (h : Account base s) {t : Fin T} {r : Stream.Reader n} {eager : Eager.St n T}
    {buffered : Multiset (Fin n × Fin n)} {rest : List (Fin n × Fin n)} (hrun : (s.stream.readers t).pc ≠ .returned)
    (hpay : buffered.card + toInsert r + 2 * rest.length =
      s.stream.buffered.card + toInsert (s.stream.readers t) + 2 * s.stream.stream.length)
    (hrest : s.stream.stream = [] → rest = []) (hreturned : r.pc = .returned → r.updateArray = [] ∧ rest = []) :
    Account base { s with stream := { s.stream with
      eager := eager, buffered := buffered, readers := Function.update s.stream.readers t r, stream := rest } } := by
  have hd : s.stream.driver = .processStream := by
    by_contra hd
    exact hrun (h.joined hd t)
  refine ⟨fun hr => ?_, fun t' ht' => ?_, fun hne => absurd hd hne, fun hready => ?_⟩
  · have hold := h.total hr
    have hsum := sum_toInsert s.stream.readers t r
    simp only [pending] at hold ⊢
    omega
  · simp only at ht' ⊢
    by_cases ht : t' = t
    · subst ht
      rw [Function.update_self] at ht' ⊢
      exact hreturned ht'
    · rw [Function.update_of_ne ht] at ht' ⊢
      exact (h.returned t' ht').imp_right hrest
  · rw [hd] at hready
    cases hready

theorem readerStep_account {base : ℕ} (h : Account base s) {t : Fin T} {o : Side} {stream : Stream.St P n T}
    (hs : Stream.readerStep priority s.stream t o = some stream) : Account base { s with stream := stream } := by
  cases hpc : (s.stream.readers t).pc with
  | next =>
    cases harr : (s.stream.readers t).updateArray with
    | nil => simp [Stream.readerStep, hpc, harr] at hs
    | cons e rest =>
      simp only [Stream.readerStep, hpc, harr, Option.map_eq_some_iff] at hs
      obtain ⟨eager, -, rfl⟩ := hs
      apply h.move (by rw [hpc]; simp) _ id fun hr => by cases hr
      simp only [toInsert, hpc, harr, Stream.ReaderPc.owed, List.length_cons, Multiset.card_add, Multiset.card_singleton,
        Multiset.card_zero]
      omega
  | preInsert e =>
    simp only [Stream.readerStep, hpc] at hs
    split_ifs at hs
    · cases hs
      apply h.move (by rw [hpc]; simp) _ id fun hr => by cases hr
      simp only [toInsert, hpc, Stream.ReaderPc.owed]
    · obtain ⟨eager, -, rfl⟩ := Option.map_eq_some_iff.1 hs
      exact h.frame rfl rfl rfl rfl rfl rfl rfl
  | insertSrc e =>
    simp only [Stream.readerStep, hpc, Option.some.injEq] at hs
    subst hs
    apply h.move (by rw [hpc]; simp) _ id fun hr => by cases hr
    simp only [toInsert, hpc, Stream.ReaderPc.owed, Multiset.card_cons, Multiset.card_add, Multiset.card_singleton]
    omega
  | insertDst e =>
    simp only [Stream.readerStep, hpc, Option.some.injEq] at hs
    subst hs
    apply h.move (by rw [hpc]; simp) _ id fun hr => by cases hr
    simp only [toInsert, hpc, Stream.ReaderPc.owed, Multiset.card_cons, Multiset.card_singleton, Multiset.card_zero]
    omega
  | returned => simp [Stream.readerStep, hpc] at hs

theorem streamStep_account {base : ℕ} (h : Account base s) {l : Stream.Label n T} (hs : streamStep priority s l = some s') :
    Account base s' := by
  obtain ⟨stream, he, rfl⟩ := Option.map_eq_some_iff.1 hs
  cases l with
  | getUpdateBuffer t k =>
    simp only [Stream.step] at he
    split_ifs at he with hnext hnil hk <;> cases he
    · refine h.move (r := { s.stream.readers t with pc := .returned }) (by rw [hnext.1]; simp) ?_ id fun _ => ⟨hnext.2, hnil⟩
      simp only [toInsert, hnext.1, hnext.2, Stream.ReaderPc.owed]
    · apply h.move (by rw [hnext.1]; simp) _ (fun hn => absurd hn hnil) fun hr => by cases hr
      simp only [toInsert, hnext.1, hnext.2, Stream.ReaderPc.owed, List.length_take, List.length_drop, List.length_nil,
        Multiset.card_zero]
      omega
  | reader t o => exact readerStep_account h he
  | batch src dsts =>
    simp only
    split_ifs
    · exact ⟨fun hr => (by cases hr), h.returned, h.joined, h.flushed⟩
    · simp only [Stream.step] at he
      split_ifs at he with hle
      cases he
      have hcard : s.stream.buffered.card =
          (s.stream.buffered - Stream.batchCopies src dsts).card + dsts.length := by
        rw [← tsub_add_cancel_of_le hle, Multiset.card_add, add_tsub_cancel_right, Stream.batchCopies, Multiset.coe_card,
          List.length_map]
      refine ⟨fun hr => ?_, h.returned, h.joined, fun hr => ?_⟩
      · have hold := h.total hr
        simp only [pending] at hold ⊢
        omega
      · rw [h.flushed hr]
        exact Multiset.zero_sub _
  | driver =>
    simp only [Stream.step] at he
    split at he
    next hd =>
      split_ifs at he with hall
      cases he
      exact ⟨h.total, h.returned, fun _ => hall, fun hr => by cases hr⟩
    next hd =>
      have hall := h.joined (by rw [hd]; simp)
      cases he
      refine ⟨h.total, h.returned, fun _ => hall, fun hr => ?_⟩
      simp only at hr
      split_ifs at hr
      · cases hr
    next hd =>
      have hall := h.joined (by rw [hd]; simp)
      split_ifs at he with hz
      cases he
      exact ⟨h.total, h.returned, fun _ => hall, fun _ => hz⟩
    next => cases he

theorem eagerStep_account {base : ℕ} (h : Account base s) {l : Eager.Label n T} (hs : eagerStep priority s l = some s') :
    Account base s' := by
  obtain ⟨eager, -, rfl⟩ := Option.map_eq_some_iff.1 hs
  exact h.frame rfl rfl rfl rfl rfl rfl (updates_record _ _)

theorem step_account {base : ℕ} (hT : 0 < T) (h : Account base s) {l : Label n T B} (hs : step priority s l = some s') :
    Account base s' := by
  unfold step at hs
  split_ifs at hs
  cases l with
  | processStreamUntil us =>
    simp only [act] at hs
    split_ifs at hs with hb
    cases hs
    obtain ⟨hzero, hnil⟩ := h.idle hT (not_processStream hb.1)
    refine ⟨fun hr => ?_, fun t ht => (by cases ht), fun hne => absurd rfl hne, fun hr => by cases hr⟩
    have hold := h.total hr
    have hnew : ∑ _t : Fin T, toInsert (⟨[], .next⟩ : Stream.Reader n) = 0 := by simp [toInsert, Stream.ReaderPc.owed]
    simp only [pending, hzero, hnil, List.length_nil] at hold
    simp only [pending, hnew, updates, List.length_append]
    omega
  | prepQuery =>
    simp only [act] at hs
    split_ifs at hs with hb
    cases hs
    exact ⟨h.total, h.returned, fun _ => h.joined (not_processStream hb.1), fun hr => by cases hr⟩
  | stream l => exact streamStep_account h hs
  | query q =>
    simp only [act] at hs
    split at hs
    next => exact eagerStep_account h hs
    all_goals cases hs
  | querier o => exact eagerStep_account h hs
  | team t o => exact eagerStep_account h hs
  | join => exact eagerStep_account h hs
  | boruvka owner =>
    simp only [act] at hs
    split at hs <;> cases hs
    exact h.frame rfl rfl rfl rfl rfl rfl rfl
  | emulate l =>
    simp only [act] at hs
    split at hs
    · obtain ⟨e, -, rfl⟩ := Option.map_eq_some_iff.1 hs
      exact h.frame rfl rfl rfl rfl rfl rfl rfl
    · cases hs
  | finish =>
    simp only [act, finish] at hs
    split at hs
    · split at hs
      · obtain ⟨eager, -, rfl⟩ := Option.map_eq_some_iff.1 hs
        exact h.frame rfl rfl rfl rfl rfl rfl rfl
      · cases hs
        exact h.frame rfl rfl rfl rfl rfl rfl rfl
      all_goals cases hs
    · cases hs

theorem account_begins {s₀ : St P n T B} (h : Begins P n T B s₀) : Account (updates s₀.history).length s₀ := by
  cases h <;>
    refine ⟨fun _ => ?_, fun t _ => ⟨rfl, rfl⟩, fun _ t => rfl, fun hr => by cases hr⟩ <;>
    simp [start, startFrom, startOf, pending, toInsert, Stream.ReaderPc.owed]

end GraphStreamingCC.Session
