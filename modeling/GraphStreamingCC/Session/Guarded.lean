/-
`boruvka_emulation` is called only behind a flush, whatever the hash does and however the calls of `find_root` race.

`prep_query` skips the flush if it finds `shared_dsu_valid`. `point_query` tests `dsu_valid` instead. But the two differ only
while a stream thread is between its two assignments in `pre_insert`, and none is when a query runs (`Flags`). So a
query behind a skipped flush finds a cached answer.
-/
import GraphStreamingCC.Session.Tidy

namespace GraphStreamingCC

/-! ## The two flags -/

namespace Eager

open Dsu

variable {n T : ℕ} {priority : Fin n → ℕ} {s s' : St n T}

theorem flags_of_idle {thr : Fin T → Option (PreInsert n)} (ha : ∀ t, thr t = none) {v : Bool} : Flags v v thr := by
  have hnone : ∀ t, NotClearing (thr t) := fun t => ha t ▸ of_none
  exact ⟨fun hv => ⟨hv, hnone⟩, .inl⟩

/-- between two calls of `pre_insert` they agree -/
theorem Flags.eq_of_idle {v sh : Bool} {thr : Fin T → Option (PreInsert n)} (h : Flags v sh thr) (ha : ∀ t, thr t = none) :
    sh = v := by
  rw [Bool.eq_iff_iff]
  refine ⟨fun hsh => (h.shared hsh).resolve_right fun ⟨t, ht⟩ => ht ?_, fun hv => (h.valid hv).1⟩
  rw [ha t]
  exact of_none

theorem insertStep_flags (h : Flags s.dsuValid s.sharedDsuValid s.thr) {t : Fin T} {o : Side} {c : PreInsert n}
    (hc : s.thr t = some c) (hs : insertStep priority s t o c = some s') :
    Flags s'.dsuValid s'.sharedDsuValid s'.thr := by
  have hmove : c.pc ≠ .clearShared → ∀ {d : Option (PreInsert n)}, NotClearing d →
      Flags s.dsuValid s.sharedDsuValid (Function.update s.thr t d) := fun hne _ hd => h.update (of_only hc hne) hd
  cases hpc : c.pc with
  | clearValid =>
    simp only [insertStep, hpc] at hs
    cases hs
    refine ⟨fun hv => (by cases hv), fun _ => .inr ⟨t, fun hn => hn { c with pc := .clearShared } ?_ rfl⟩⟩
    exact Function.update_self ..
  | clearShared =>
    simp only [insertStep, hpc] at hs
    cases hs
    exact ⟨fun hv => absurd hpc ((h.valid hv).2 t c hc), fun hv => by cases hv⟩
  | testValid | lock | insert | find | unlock =>
    simp only [insertStep, hpc] at hs
    (try split_ifs at hs) <;> cases hs <;> first
      | exact hmove (by simp [hpc]) (of_some (by simp))
      | exact hmove (by simp [hpc]) of_none
  | merge m =>
    simp only [insertStep, hpc] at hs
    split at hs <;> (try split_ifs at hs) <;> cases hs <;> exact hmove (by simp [hpc]) (of_some (by simp))

end Eager

/-! ## Sessions -/

namespace Session

open Boruvka Dsu Eager Service

variable {P : Params} {n T B : ℕ} {priority : Fin n → ℕ} {s s' : St P n T B}

structure Guarded (priority : Fin n → ℕ) (s : St P n T B) : Prop where
  tidy : Tidy priority s
  joined : s.stream.driver ≠ .processStream → ∀ t, (s.stream.readers t).pc = .returned
  flags : Flags s.stream.eager.dsuValid s.stream.eager.sharedDsuValid s.stream.eager.thr
  cached : s.stream.driver = .ready true → s.stream.eager.sharedDsuValid = true
  behind : ∀ q, s.stream.eager.query = .boruvka q → s.stream.driver = .ready false

/-- no query runs -/
theorem guarded_of_free (htidy : Tidy priority s)
    (hjoined : s.stream.driver ≠ .processStream → ∀ t, (s.stream.readers t).pc = .returned)
    (hflags : Flags s.stream.eager.dsuValid s.stream.eager.sharedDsuValid s.stream.eager.thr)
    (hcached : s.stream.driver = .ready true → s.stream.eager.sharedDsuValid = true) (hf : s.stream.eager.query.free = true) :
    Guarded priority s :=
  ⟨htidy, hjoined, hflags, hcached, fun q hq => absurd hq (free_ne_boruvka hf q)⟩

/-- the union-find stays as it is -/
theorem Guarded.frame (h : Guarded priority s) (htidy : Tidy priority s') (heager : s'.stream.eager = s.stream.eager)
    (hreaders : s'.stream.readers = s.stream.readers) (hdriver : s'.stream.driver = s.stream.driver) :
    Guarded priority s' := by
  refine ⟨htidy, ?_, ?_, ?_, ?_⟩
  · rw [hdriver, hreaders]
    exact h.joined
  · rw [heager]
    exact h.flags
  · rw [hdriver, heager]
    exact h.cached
  · rw [heager, hdriver]
    exact h.behind

theorem streamStep_guarded {base : ℕ} (haccount : Account base s') (htidy : Tidy priority s') (h : Guarded priority s)
    {l : Stream.Label n T} (hs : streamStep priority s l = some s') : Guarded priority s' := by
  by_cases hf : s.stream.eager.query.free = true
  · obtain ⟨stream, he, hs⟩ := Option.map_eq_some_iff.1 hs
    have hjoined := haccount.joined
    cases l with
    | getUpdateBuffer t k =>
      simp only [Stream.step] at he
      split_ifs at he with hnext <;> cases he <;> subst hs <;>
        exact guarded_of_free htidy hjoined h.flags h.cached hf
    | reader t o =>
      subst hs
      have hd : s.stream.driver = .processStream := by
        by_contra hd
        simp [Stream.step, Stream.readerStep, h.joined hd t] at he
      cases hpc : (s.stream.readers t).pc with
      | next =>
        cases harr : (s.stream.readers t).updateArray with
        | nil => simp [Stream.step, Stream.readerStep, hpc, harr] at he
        | cons e rest =>
          simp only [Stream.step, Stream.readerStep, hpc, harr, Option.map_eq_some_iff] at he
          obtain ⟨eager, he, rfl⟩ := he
          simp only [Eager.step] at he
          split_ifs at he with hfree
          cases he
          refine guarded_of_free htidy hjoined (h.flags.update ?_ (of_some (by simp))) h.cached rfl
          rw [hfree.2]
          exact of_none
      | preInsert e =>
        simp only [Stream.step, Stream.readerStep, hpc] at he
        split_ifs at he with hthr
        · cases he
          exact guarded_of_free htidy hjoined h.flags h.cached hf
        · obtain ⟨eager, hinsert, rfl⟩ := Option.map_eq_some_iff.1 he
          simp only [Eager.step] at hinsert
          split at hinsert
          next => cases hinsert
          next c hc =>
            refine guarded_of_free htidy hjoined (insertStep_flags h.flags hc hinsert) (fun hr => ?_) ?_
            · simp only at hr
              rw [hd] at hr
              cases hr
            · exact (insertStep_frame hinsert).1 ▸ hf
      | insertSrc e | insertDst e =>
        simp only [Stream.step, Stream.readerStep, hpc, Option.some.injEq] at he
        subst he
        exact guarded_of_free htidy hjoined h.flags h.cached hf
      | returned => simp [Stream.step, Stream.readerStep, hpc] at he
    | batch src dsts =>
      simp only [Stream.step] at he
      split_ifs at he
      cases he
      simp only at hs
      split_ifs at hs <;> subst hs <;> exact guarded_of_free htidy hjoined h.flags h.cached hf
    | driver =>
      subst hs
      simp only [Stream.step] at he
      split at he
      next =>
        split_ifs at he
        cases he
        exact guarded_of_free htidy hjoined h.flags (fun hr => by cases hr) hf
      next =>
        cases he
        refine guarded_of_free htidy hjoined h.flags (fun hr => ?_) hf
        simp only at hr
        split_ifs at hr with hv
        exact hv
      next =>
        split_ifs at he
        cases he
        exact guarded_of_free htidy hjoined h.flags (fun hr => by cases hr) hf
      next => cases he
  · obtain ⟨c, hc⟩ := h.tidy.asked (by simpa using hf)
    obtain ⟨heager, hreaders, hdriver, -, -⟩ := streamStep_busy (h.joined (by rw [hc]; simp)) hc hs
    exact h.frame htidy heager hreaders hdriver

theorem eagerStep_guarded (htidy : Tidy priority s') (h : Guarded priority s) {l : Eager.Label n T} (hl : l.Asks)
    (hs : eagerStep priority s l = some s') : Guarded priority s' := by
  obtain ⟨eager, he, rfl⟩ := Option.map_eq_some_iff.1 hs
  obtain ⟨-, hthr, hvalid, hshared⟩ := asks_frame hl he
  refine ⟨htidy, h.joined, ?_, fun hr => hshared.trans (h.cached hr), fun q hq => ?_⟩
  · simp only [hthr, hvalid, hshared]
    exact h.flags
  · obtain ⟨hfree, hcleared⟩ := cleared_of_boruvka hl he hq
    obtain ⟨c, hc⟩ := h.tidy.asked hfree
    cases c with
    | false => exact hc
    | true =>
      have hshared := h.cached hc
      have hvalid := (h.flags.eq_of_idle (h.tidy.eager.alone hfree)).symm.trans hshared
      rw [hvalid, hshared, or_self] at hcleared
      cases hcleared

theorem step_guarded {base : ℕ} (hT : 0 < T) (haccount : Account base s) (h : Guarded priority s) {l : Label n T B}
    (hs : step priority s l = some s') : Guarded priority s' := by
  have htidy := step_tidy haccount h.tidy hs
  have hjoined := step_account hT haccount hs
  unfold step at hs
  split_ifs at hs
  cases l with
  | processStreamUntil us =>
    simp only [act] at hs
    split_ifs at hs with hb
    cases hs
    exact guarded_of_free htidy hjoined.joined h.flags (fun hr => by cases hr) hb.2
  | prepQuery =>
    simp only [act] at hs
    split_ifs at hs with hb
    cases hs
    exact guarded_of_free htidy hjoined.joined h.flags (fun hr => by cases hr) hb.2
  | stream l => exact streamStep_guarded hjoined htidy h hs
  | query q =>
    simp only [act] at hs
    split at hs
    next => exact eagerStep_guarded (l := .query q) htidy h trivial hs
    all_goals cases hs
  | querier o => exact eagerStep_guarded (l := .querier o) htidy h trivial hs
  | team t o => exact eagerStep_guarded (l := .team t o) htidy h trivial hs
  | join => exact eagerStep_guarded (l := .join) htidy h trivial hs
  | boruvka owner =>
    simp only [act] at hs
    split at hs <;> cases hs
    exact h.frame htidy rfl rfl rfl
  | emulate l =>
    simp only [act] at hs
    split at hs
    · obtain ⟨e, -, rfl⟩ := Option.map_eq_some_iff.1 hs
      exact h.frame htidy rfl rfl rfl
    · cases hs
  | finish =>
    simp only [act] at hs
    split at hs
    next owner e hx =>
      obtain ⟨⟨q, hq⟩, -⟩ := h.tidy.boruvka _ hx
      unfold finish at hs
      split at hs
      · obtain ⟨eager, he, rfl⟩ := Option.map_eq_some_iff.1 hs
        simp only [Eager.step, hq, Option.some.injEq] at he
        subst he
        have hthr := h.tidy.eager.alone (by rw [hq]; rfl)
        exact ⟨htidy, h.joined, flags_of_idle hthr, fun _ => rfl, fun q hq => by cases hq⟩
      · cases hs
        exact guarded_of_free htidy h.joined h.flags h.cached rfl
      all_goals cases hs
    next => cases hs

theorem guarded_begins {s₀ : St P n T B} (h : Begins P n T B s₀) : Guarded priority s₀ := by
  have h0 := Eager.tidy_init (T := T) priority
  cases h with
  | new =>
    have htidy : Tidy priority (start P n T B) := tidy_startOf h0 rfl (fun t => rfl) _ _
    exact guarded_of_free htidy (fun _ t => rfl) (flags_of_idle fun t => rfl) (fun hr => by cases hr) rfl
  | read sketches us hb =>
    have htidy : Tidy priority (startFrom T B sketches us) := by
      apply tidy_startOf _ rfl (fun t => rfl)
      exact ⟨h0.ord, h0.call, h0.oriented, h0.alone, h0.query⟩
    exact guarded_of_free htidy (fun _ t => rfl) (flags_of_idle fun t => rfl) (fun hr => by cases hr) rfl

end Session

end GraphStreamingCC
