/-
A Boruvka round unites the vertices along the edges of its good samples, in whatever order its threads run.

The partition that a round begins with is σ. In between, the sets of the union-find lie between σ and σ joined along the
good samples; a good sample whose ends are not in one set yet is still in a call of `merge`; and `modified` is set, or
about to be, if and only if a sample has failed or some merge has changed the partition (`SimInv`). So at the end the
sets are σ joined along all good samples, and `modified` tells whether something has failed or the partition is not σ
any more: neither depends on which of several edges between two sets has won (`SimInv.sets_eq`, `SimInv.modified_iff`).

The pairs in `spanning_forest`, with those that are about to be inserted, are a forest that spans the sets (`ForestInv`).
-/
import GraphStreamingCC.Boruvka.Progress
import GraphStreamingCC.Core.Rounds
import GraphStreamingCC.Core.SpanningForest

namespace GraphStreamingCC.Boruvka

open Dsu ParentForest Rounds SpanningForest

variable {P : Params} {n T : ℕ} {priority : Fin n → ℕ} {r : ℕ} {s s' : St P n T}

/-! ## What a step does to the shared data -/

/-- what `sample_supernode` learns from the next sample of the sketch; nothing, if that throws -/
def outcome (n : ℕ) (skt : Sketch P) : Outcome (Fin n) :=
  match skt.sample with
  | .error _ => .zero
  | .ok (_, smp) =>
    match smp.result with
    | .fail => .fail
    | .zero => .zero
    | .good => (decodeEdge n smp.idx).elim .zero .good

/-- where `sample_supernode` goes -/
def outcomePc : Outcome (Fin n) → Pc n
  | .fail => .mark
  | .zero => .idle
  | .good e => .merge e (.loop e.1 e.2)

/-- what the result of the round is read off -/
structure Shared (P : Params) (n : ℕ) where
  parent : Fin n → Fin n
  spanningForest : Fin n → Finset (Fin n)
  modified : Bool
  sampled : List (Fin n × Sketch P)

def St.shared (s : St P n T) : Shared P n := ⟨s.parent, s.spanningForest, s.modified, s.sampled⟩

/-- between two calls of `sample_supernode` -/
def Pc.Outside : Pc n → Prop
  | .idle | .ready .. => True
  | .merge .. | .insert _ | .mark => False

theorem sample_shared {t : Fin T} {acts : List (Act P n)} {ρ : Fin n} {skt : Sketch P} (put : St P n T → Sketch P → St P n T)
    (hthr : ∀ s skt, (put s skt).thr = s.thr) (hshared : ∀ s skt, (put s skt).shared = s.shared)
    (hs : s.sample t acts ρ skt put = some s') : ∃ x : Fin n × Sketch P,
      s'.thr = Function.update s.thr t ⟨acts, outcomePc (outcome n x.2)⟩ ∧
        s'.shared = { s.shared with sampled := x :: s.sampled } := by
  refine ⟨(ρ, skt), ?_⟩
  unfold St.sample at hs
  unfold outcome
  split at hs
  next e hsample =>
    cases hs
    simp only [hsample]
    exact ⟨rfl, rfl⟩
  next skt' smp hsample =>
    obtain ⟨pc, hpc, rfl⟩ := Option.map_eq_some_iff.1 hs
    rw [hthr, hshared]
    refine ⟨?_, rfl⟩
    unfold afterSample at hpc
    simp only [hsample]
    cases hres : smp.result with
    | fail | zero =>
      simp only [hres, Option.some.injEq] at hpc
      rw [← hpc]
      rfl
    | good =>
      simp only [hres] at hpc
      obtain ⟨e, he, rfl⟩ := Option.map_eq_some_iff.1 hpc
      simp only [he, Option.elim_some]
      rfl

/-- **What a step does**: a thread between two samples, a sample, an operation of `merge`, an insertion, or setting the
flag -/
theorem step_shared {t : Fin T} {o : Side} (hs : step priority r s (t, o) = some s') : ∃ acts pc,
    s'.thr = Function.update s.thr t ⟨acts, pc⟩ ∧
      ((s.thr t).pc.Outside ∧ pc.Outside ∧ s'.shared = s.shared ∨
      (∃ x, (s.thr t).pc.Outside ∧ pc = outcomePc (outcome n x.2) ∧ s'.shared = { s.shared with sampled := x :: s.sampled }) ∨
      (∃ e m, (s.thr t).pc = .merge e m ∧ s'.shared = { s.shared with parent := (m.step priority s.parent o).1 } ∧
        pc = match (m.step priority s.parent o).2 with
          | .inl m' => .merge e m'
          | .inr ret => if ret.merged then .insert e else .idle) ∨
      (∃ e, (s.thr t).pc = .insert e ∧ pc = .mark ∧ s'.shared = { s.shared with
        spanningForest := Function.update s.spanningForest (min e.1 e.2)
          (insert (max e.1 e.2) (s.spanningForest (min e.1 e.2))) }) ∨
      (s.thr t).pc = .mark ∧ pc = .idle ∧ s'.shared = { s.shared with modified := true }) := by
  unfold step at hs
  split at hs
  next hold => cases hs
  next a acts hold =>
    have hout : (s.thr t).pc.Outside := by
      rw [hold]
      trivial
    cases a with
    | sampleVertex v =>
      obtain ⟨x, hthr, hx⟩ := sample_shared (St.putVertex v) (fun _ _ => rfl) (fun _ _ => rfl) hs
      exact ⟨acts, _, hthr, .inr (.inl ⟨x, hout, rfl, hx⟩)⟩
    | sampleLocal root skt =>
      obtain ⟨x, hthr, hx⟩ := sample_shared (fun s _ => s) (fun _ _ => rfl) (fun _ _ => rfl) hs
      exact ⟨acts, _, hthr, .inr (.inl ⟨x, hout, rfl, hx⟩)⟩
    | setNeeded id root k =>
      cases hs
      exact ⟨acts, .idle, rfl, .inl ⟨hout, trivial, rfl⟩⟩
    | mergeGlobal id root skt =>
      cases hs
      refine ⟨acts, _, rfl, .inl ⟨hout, ?_, rfl⟩⟩
      split_ifs <;> trivial
    | undefined => cases hs
  next acts id root hold =>
    have hout : (s.thr t).pc.Outside := by
      rw [hold]
      trivial
    obtain ⟨x, hthr, hx⟩ := sample_shared (St.putGlobal id) (fun _ _ => rfl) (fun _ _ => rfl) hs
    exact ⟨acts, _, hthr, .inr (.inl ⟨x, hout, rfl, hx⟩)⟩
  next acts e m hold =>
    have hpc : (s.thr t).pc = .merge e m := by rw [hold]
    split at hs
    next parent' m' hm =>
      cases hs
      exact ⟨acts, .merge e m', rfl, .inr (.inr (.inl ⟨e, m, hpc, by rw [hm]; rfl, by rw [hm]⟩))⟩
    next parent' ret hm =>
      cases hs
      exact ⟨acts, if ret.merged then .insert e else .idle, rfl, .inr (.inr (.inl ⟨e, m, hpc, by rw [hm]; rfl, by rw [hm]⟩))⟩
  next acts e hold =>
    cases hs
    exact ⟨acts, .mark, rfl, .inr (.inr (.inr (.inl ⟨e, by rw [hold], rfl, rfl⟩)))⟩
  next acts hold =>
    cases hs
    exact ⟨acts, .idle, rfl, .inr (.inr (.inr (.inr ⟨by rw [hold], rfl, rfl⟩)))⟩

/-! ## The threads that are in a statement -/

/-- some thread is there -/
def St.At (s : St P n T) (Q : Pc n → Prop) : Prop := ∃ t, Q (s.thr t).pc

section at_

variable {t : Fin T} {acts : List (Act P n)} {pc : Pc n} {Q : Pc n → Prop}

theorem at_gain (hthr : s'.thr = Function.update s.thr t ⟨acts, pc⟩) (hold : ¬ Q (s.thr t).pc) : s'.At Q ↔ Q pc ∨ s.At Q := by
  unfold St.At
  rw [hthr]
  constructor
  · intro h
    obtain ⟨t', ht'⟩ := h
    by_cases ht : t' = t
    · subst ht
      rw [Function.update_self] at ht'
      exact .inl ht'
    · rw [Function.update_of_ne ht] at ht'
      exact .inr ⟨t', ht'⟩
  · intro h
    rcases h with h | ⟨t', ht'⟩
    · exact ⟨t, by rwa [Function.update_self]⟩
    · have hne : t' ≠ t := fun he => hold (he ▸ ht')
      exact ⟨t', by rwa [Function.update_of_ne hne]⟩

theorem at_keep (hthr : s'.thr = Function.update s.thr t ⟨acts, pc⟩) (h : Q (s.thr t).pc ↔ Q pc) : s'.At Q ↔ s.At Q := by
  by_cases hold : Q (s.thr t).pc
  · refine iff_of_true ⟨t, ?_⟩ ⟨t, hold⟩
    rw [hthr, Function.update_self]
    exact h.1 hold
  · rw [at_gain hthr hold, or_iff_right fun hpc => hold (h.2 hpc)]

theorem at_lose (hthr : s'.thr = Function.update s.thr t ⟨acts, pc⟩) (h : s.At Q) : Q (s.thr t).pc ∨ s'.At Q := by
  obtain ⟨t', ht'⟩ := h
  by_cases ht : t' = t
  · subst ht
    exact .inl ht'
  · exact .inr ⟨t', by rwa [hthr, Function.update_of_ne ht]⟩

end at_

/-- in the `dsu.merge` of this edge -/
def Pc.Merging (e : Fin n × Fin n) (pc : Pc n) : Prop := ∃ m, pc = .merge e m

/-- about to set `modified`, after an insertion or at once -/
def Pc.Marks (pc : Pc n) : Prop := pc = .mark ∨ ∃ e, pc = .insert e

theorem Pc.Outside.not_merging {pc : Pc n} (h : pc.Outside) (e : Fin n × Fin n) : ¬ pc.Merging e := by
  rintro ⟨m, rfl⟩
  exact h

theorem Pc.Outside.not_marks {pc : Pc n} (h : pc.Outside) : ¬ pc.Marks := by
  rintro (rfl | ⟨e, rfl⟩) <;> exact h

theorem outcomePc_merging {x : Outcome (Fin n)} {e : Fin n × Fin n} : (outcomePc x).Merging e ↔ x = .good e := by
  cases x <;> simp [outcomePc, Pc.Merging]

theorem outcomePc_marks {x : Outcome (Fin n)} : (outcomePc x).Marks ↔ x = .fail := by
  cases x <;> simp [outcomePc, Pc.Marks]

theorem merge_merging {e e' : Fin n × Fin n} {m : MergePc n} : (Pc.merge e m).Merging e' ↔ e = e' := by
  simp [Pc.Merging]

theorem merge_not_marks {e : Fin n × Fin n} {m : MergePc n} : ¬ (Pc.merge e m).Marks := by
  simp [Pc.Marks]

/-! ## The partition -/

/-- the partition of the vertices into the sets of the union-find -/
def sets (parent : Fin n → Fin n) : Setoid (Fin n) := Setoid.ker (root parent)

theorem sets_iff {parent : Fin n → Fin n} {u v : Fin n} : sets parent u v ↔ Same parent u v := Iff.rfl

theorem sets_quiet {parent parent' : Fin n → Fin n} (ho : Ordered (rank priority) parent)
    (hq : Quiet (rank priority) parent parent') : sets parent' = sets parent := by
  ext u v
  exact hq.same_iff ho u v

/-- a sample of the round so far was good, with this edge -/
def St.Good (s : St P n T) (e : Fin n × Fin n) : Prop := ∃ x ∈ s.sampled, outcome n x.2 = .good e

/-- a sample of the round so far has failed -/
def St.Fails (s : St P n T) : Prop := ∃ x ∈ s.sampled, outcome n x.2 = .fail

theorem good_congr (h : s'.sampled = s.sampled) : s'.Good = s.Good := by
  funext e
  simp only [St.Good, h]

structure SimInv (σ : Setoid (Fin n)) (s : St P n T) : Prop where
  lower : σ ≤ sets s.parent
  upper : sets s.parent ≤ joined s.Good σ
  merged : ∀ e, s.Good e → Same s.parent e.1 e.2 ∨ s.At (Pc.Merging e)
  good : ∀ e, s.At (Pc.Merging e) → s.Good e
  flag : s.modified = true ∨ s.At Pc.Marks ↔ s.Fails ∨ sets s.parent ≠ σ

variable {σ : Setoid (Fin n)}

theorem simInv_start (sketches : Fin n → Sketch P) (parent : Fin n → Fin n) (forest : Fin n → Finset (Fin n))
    (progs : Fin T → List (Act P n)) : SimInv (sets parent) (start sketches parent forest progs) where
  lower := le_rfl
  upper := le_joined _ _
  merged e he := by
    obtain ⟨x, hx, -⟩ := he
    cases hx
  good e he := by
    obtain ⟨t, m, hm⟩ := he
    cases hm
  flag := by
    refine iff_of_false ?_ ?_
    · rintro (h | ⟨t, h | ⟨e, h⟩⟩) <;> cases h
    · rintro (⟨x, hx, -⟩ | h)
      · cases hx
      · exact h rfl

theorem sets_ne_of_links {parent parent' : Fin n → Fin n} {u v : Fin n} (ho : Ordered (rank priority) parent)
    (hl : Links (rank priority) parent parent' u v) (hσ : σ ≤ sets parent) : sets parent' ≠ σ := by
  rintro rfl
  exact hl.not_same ho (hσ ((hl.same_iff ho u v).2 (.inr (.inl ⟨Same.refl _ u, Same.refl _ v⟩))))

theorem joined_mono {E E' : Fin n × Fin n → Prop} (h : ∀ e, E e → E' e) : joined E σ ≤ joined E' σ :=
  joined_le (le_joined _ _) fun _ he => joined_of_edge (h _ he)

/-- a step that samples nothing leaves the good samples as they are -/
theorem SimInv.of_sampled_eq (h : SimInv σ s) (hsampled : s'.sampled = s.sampled) (hlower : σ ≤ sets s'.parent)
    (hupper : sets s'.parent ≤ joined s.Good σ)
    (hmerged : ∀ e, s.Good e → Same s'.parent e.1 e.2 ∨ s'.At (Pc.Merging e))
    (hcalls : ∀ e, s'.At (Pc.Merging e) → s.At (Pc.Merging e))
    (hflag : s'.modified = true ∨ s'.At Pc.Marks ↔ s.Fails ∨ sets s'.parent ≠ σ) : SimInv σ s' := by
  have hgood := good_congr hsampled
  have hfails : s'.Fails = s.Fails := by simp only [St.Fails, hsampled]
  refine ⟨hlower, hgood ▸ hupper, fun e he => hmerged e (hgood ▸ he), fun e he => hgood ▸ h.good e (hcalls e he), ?_⟩
  rw [hfails]
  exact hflag

/-- nothing changes for the partition -/
theorem SimInv.frame (h : SimInv σ s) (hsampled : s'.sampled = s.sampled) (hsets : sets s'.parent = sets s.parent)
    (hmodified : s'.modified = s.modified) (hmerging : ∀ e, s'.At (Pc.Merging e) ↔ s.At (Pc.Merging e))
    (hmarks : s'.At Pc.Marks ↔ s.At Pc.Marks) : SimInv σ s' := by
  refine h.of_sampled_eq hsampled (hsets ▸ h.lower) (hsets ▸ h.upper) (fun e he => ?_) (fun e => (hmerging e).1) ?_
  · rw [hmerging, ← sets_iff, hsets]
    exact h.merged e he
  · rw [hsets, hmodified, hmarks]
    exact h.flag

section cases

variable {t : Fin T} {acts : List (Act P n)} {pc : Pc n} {e : Fin n × Fin n} {m : MergePc n}

theorem SimInv.sample (h : SimInv σ s) {x : Fin n × Sketch P}
    (hthr : s'.thr = Function.update s.thr t ⟨acts, outcomePc (outcome n x.2)⟩) (hold : (s.thr t).pc.Outside)
    (hshared : s'.shared = { s.shared with sampled := x :: s.sampled }) : SimInv σ s' := by
  obtain ⟨hparent, -, hmodified, hsampled⟩ := Shared.mk.inj hshared
  have hmerging : ∀ e, s'.At (Pc.Merging e) ↔ outcome n x.2 = .good e ∨ s.At (Pc.Merging e) := fun e =>
    (at_gain hthr (hold.not_merging e)).trans (or_congr_left outcomePc_merging)
  have hmarks : s'.At Pc.Marks ↔ outcome n x.2 = .fail ∨ s.At Pc.Marks :=
    (at_gain hthr hold.not_marks).trans (or_congr_left outcomePc_marks)
  have hgood : ∀ e, s'.Good e ↔ outcome n x.2 = .good e ∨ s.Good e := fun e => by
    simp only [St.Good, hsampled, List.mem_cons, exists_eq_or_imp]
  have hfails : s'.Fails ↔ outcome n x.2 = .fail ∨ s.Fails := by
    simp only [St.Fails, hsampled, List.mem_cons, exists_eq_or_imp]
  refine ⟨hparent ▸ h.lower, ?_, fun e he => ?_, fun e he => ?_, ?_⟩
  · rw [hparent]
    exact h.upper.trans (joined_mono fun e he => (hgood e).2 (.inr he))
  · rw [hparent, hmerging]
    rcases (hgood e).1 he with he | he
    · exact .inr (.inl he)
    · exact (h.merged e he).imp_right .inr
  · exact (hgood e).2 (((hmerging e).1 he).imp_right (h.good e))
  · rw [hparent, hmodified, hmarks, hfails, or_left_comm, or_assoc]
    exact or_congr_right h.flag

/-- the thread leaves its call of `merge` -/
theorem merging_left (hthr : s'.thr = Function.update s.thr t ⟨acts, pc⟩) (hold : (s.thr t).pc = .merge e m)
    (hpc : ∀ e', ¬ pc.Merging e') (e' : Fin n × Fin n) :
    (s'.At (Pc.Merging e') → s.At (Pc.Merging e')) ∧ (s.At (Pc.Merging e') → e = e' ∨ s'.At (Pc.Merging e')) := by
  constructor
  · intro h
    by_cases he : e = e'
    · exact ⟨t, m, he ▸ hold⟩
    · refine ((at_gain hthr ?_).1 h).resolve_left (hpc e')
      rwa [hold, merge_merging]
  · intro h
    refine (at_lose hthr h).imp_left fun hm => ?_
    rwa [hold, merge_merging] at hm

/-- the call has made the sets of the two ends one; the thread will set the flag -/
theorem SimInv.linked (h : SimInv σ s) (ho : Ordered (rank priority) s.parent)
    (hthr : s'.thr = Function.update s.thr t ⟨acts, .insert e⟩) (hold : (s.thr t).pc = .merge e m)
    (hsampled : s'.sampled = s.sampled) (hl : Links (rank priority) s.parent s'.parent e.1 e.2) : SimInv σ s' := by
  have hsub : sets s.parent ≤ sets s'.parent := fun {u v} huv => (hl.same_iff ho u v).2 (.inl huv)
  have hends : Same s'.parent e.1 e.2 := (hl.same_iff ho _ _).2 (.inr (.inl ⟨Same.refl _ _, Same.refl _ _⟩))
  have hcalls := merging_left hthr hold fun e' => by simp [Pc.Merging]
  have hmarks : s'.At Pc.Marks := ⟨t, by rw [hthr, Function.update_self]; exact .inr ⟨e, rfl⟩⟩
  refine h.of_sampled_eq hsampled (h.lower.trans hsub) (fun {u v} huv => ?_) (fun e' he' => ?_) (fun e' => (hcalls e').1)
    (iff_of_true (.inr hmarks) (.inr (sets_ne_of_links ho hl h.lower)))
  · have hup : ∀ {a b}, Same s.parent a b → joined s.Good σ a b := fun hab => h.upper hab
    have hedge : joined s.Good σ e.1 e.2 := joined_of_edge (h.good e ⟨t, m, hold⟩)
    rcases (hl.same_iff ho u v).1 huv with huv | ⟨hu, hv⟩ | ⟨hu, hv⟩
    · exact hup huv
    · exact (joined s.Good σ).trans (hup hu) ((joined s.Good σ).trans hedge (hup hv.symm))
    · exact (joined s.Good σ).trans (hup hu) ((joined s.Good σ).trans ((joined s.Good σ).symm hedge) (hup hv.symm))
  · rcases h.merged e' he' with hsame | hcall
    · exact .inl (hsub hsame)
    · rcases (hcalls e').2 hcall with rfl | hcall
      · exact .inl hends
      · exact .inr hcall

/-- the call has found the two ends in one set -/
theorem SimInv.redundant (h : SimInv σ s) (ho : Ordered (rank priority) s.parent)
    (hthr : s'.thr = Function.update s.thr t ⟨acts, .idle⟩) (hold : (s.thr t).pc = .merge e m)
    (hsampled : s'.sampled = s.sampled) (hmodified : s'.modified = s.modified)
    (hq : Quiet (rank priority) s.parent s'.parent) (hsame : Same s'.parent e.1 e.2) : SimInv σ s' := by
  have hsets := sets_quiet ho hq
  have hcalls := merging_left hthr hold fun e' => by simp [Pc.Merging]
  have hmarks : s'.At Pc.Marks ↔ s.At Pc.Marks := at_keep hthr (by rw [hold]; simp [Pc.Marks])
  refine h.of_sampled_eq hsampled (hsets ▸ h.lower) (hsets ▸ h.upper) (fun e' he' => ?_) (fun e' => (hcalls e').1) ?_
  · rcases h.merged e' he' with hsame' | hcall
    · exact .inl ((hq.same_iff ho _ _).2 hsame')
    · rcases (hcalls e').2 hcall with rfl | hcall
      · exact .inl hsame
      · exact .inr hcall
  · rw [hsets, hmodified, hmarks]
    exact h.flag

end cases

/-- **The invariant of a round**: each step keeps it -/
theorem SimInv.step (hdsu : DsuInv priority s) (h : SimInv σ s) {l : Fin T × Side}
    (hs : Boruvka.step priority r s l = some s') : SimInv σ s' := by
  obtain ⟨t, o⟩ := l
  obtain ⟨acts, pc, hthr, hcase⟩ := step_shared hs
  rcases hcase with ⟨hold, hnew, hshared⟩ | ⟨x, hold, rfl, hshared⟩ | ⟨e, m, hold, hshared, hpc⟩ | ⟨e, hold, rfl, hshared⟩ |
    ⟨hold, rfl, hshared⟩
  · -- nothing is shared
    obtain ⟨hparent, -, hmodified, hsampled⟩ := Shared.mk.inj hshared
    exact h.frame hsampled (congrArg sets hparent) hmodified
      (fun e => at_keep hthr (iff_of_false (hold.not_merging e) (hnew.not_merging e)))
      (at_keep hthr (iff_of_false hold.not_marks hnew.not_marks))
  · exact h.sample hthr hold hshared
  · -- an operation of a call of `merge`
    obtain ⟨hparent, -, hmodified, hsampled⟩ := Shared.mk.inj hshared
    have hpost := MergePc.step_spec hdsu.ord (hdsu.calls t e m hold).1 o
    rw [← hparent] at hpost
    rcases hst : (m.step priority s.parent o).2 with m' | ret <;> rw [hst] at hpost hpc
    · subst hpc
      exact h.frame hsampled (sets_quiet hdsu.ord hpost.1) hmodified
        (fun e' => at_keep hthr (by rw [hold, merge_merging, merge_merging]))
        (at_keep hthr (by rw [hold]; exact iff_of_false merge_not_marks merge_not_marks))
    · rcases hpost with ⟨hret, hl⟩ | ⟨hret, hq, hsame⟩
      · simp only [hret, if_true] at hpc
        exact h.linked hdsu.ord (hpc ▸ hthr) hold hsampled hl
      · simp only [hret, Bool.false_eq_true, if_false] at hpc
        exact h.redundant hdsu.ord (hpc ▸ hthr) hold hsampled hmodified hq hsame
  · -- an insertion
    obtain ⟨hparent, -, hmodified, hsampled⟩ := Shared.mk.inj hshared
    exact h.frame hsampled (congrArg sets hparent) hmodified (fun e' => at_keep hthr (by rw [hold]; simp [Pc.Merging]))
      (at_keep hthr (by rw [hold]; exact iff_of_true (.inr ⟨e, rfl⟩) (.inl rfl)))
  · -- the flag is set
    obtain ⟨hparent, -, hmodified, hsampled⟩ := Shared.mk.inj hshared
    have hmerging : ∀ e', s'.At (Pc.Merging e') ↔ s.At (Pc.Merging e') := fun e' =>
      at_keep hthr (by rw [hold]; simp [Pc.Merging])
    refine h.of_sampled_eq hsampled (hparent ▸ h.lower) (hparent ▸ h.upper) (fun e' he' => ?_) (fun e' => (hmerging e').1) ?_
    · rw [hparent, hmerging]
      exact h.merged e' he'
    · rw [hparent, hmodified]
      exact iff_of_true (.inl rfl) (h.flag.1 (.inr ⟨t, .inl hold⟩))

/-! ## The end of a round -/

theorem Done.not_at (hd : Done s) {Q : Pc n → Prop} (hQ : ¬ Q .idle) : ¬ s.At Q := by
  rintro ⟨t, ht⟩
  rw [(hd t).2] at ht
  exact hQ ht

/-- **The sets at the end** are the old ones, joined along the good samples. -/
theorem SimInv.sets_eq (h : SimInv σ s) (hd : Done s) : sets s.parent = joined s.Good σ := by
  refine le_antisymm h.upper (joined_le h.lower fun e he => ?_)
  exact (h.merged e he).resolve_right (hd.not_at (by simp [Pc.Merging]))

/-- **The flag at the end** tells whether something has failed or the sets are not the old ones. -/
theorem SimInv.modified_iff (h : SimInv σ s) (hd : Done s) : s.modified = true ↔ s.Fails ∨ joined s.Good σ ≠ σ := by
  rw [← h.sets_eq hd, ← h.flag]
  exact (or_iff_left (hd.not_at (by simp [Pc.Marks]))).symm

/-! ## The forest -/

/-- about to insert this edge -/
def Pc.Inserting (e : Fin n × Fin n) (pc : Pc n) : Prop := pc = .insert e

/-- the edges in `spanning_forest` or about to be inserted -/
def St.forestGraph (s : St P n T) : SimpleGraph (Fin n) :=
  SimpleGraph.fromRel fun u v => v ∈ s.spanningForest u ∨ s.At (Pc.Inserting (u, v))

theorem forestGraph_adj {u v : Fin n} : s.forestGraph.Adj u v ↔
    u ≠ v ∧ ((v ∈ s.spanningForest u ∨ s.At (Pc.Inserting (u, v))) ∨ u ∈ s.spanningForest v ∨ s.At (Pc.Inserting (v, u))) :=
  SimpleGraph.fromRel_adj _ u v

theorem forestGraph_of_not_at (h : ∀ e, ¬ s.At (Pc.Inserting e)) : s.forestGraph = setGraph s.spanningForest := by
  ext u v
  simp only [forestGraph_adj, setGraph_adj, h, or_false]

/-- the forest spans the sets; its edges are those of G, from earlier rounds, or good samples of this one -/
structure ForestInv (G : SimpleGraph (Fin n)) (s : St P n T) : Prop where
  spans : Spans s.parent s.forestGraph
  below : ∀ v, ∀ w ∈ s.spanningForest v, v < w
  distinct : ∀ e, s.At (Pc.Inserting e) → e.1 ≠ e.2
  edges : ∀ u v, s.forestGraph.Adj u v → G.Adj u v ∨ s.Good (u, v) ∨ s.Good (v, u)

variable {G : SimpleGraph (Fin n)}

theorem forestInv_start {parent : Fin n → Fin n} {forest : Fin n → Finset (Fin n)} (hspans : Spans parent (setGraph forest))
    (hbelow : ∀ v, ∀ w ∈ forest v, v < w) (hle : setGraph forest ≤ G) (sketches : Fin n → Sketch P)
    (progs : Fin T → List (Act P n)) : ForestInv G (start sketches parent forest progs) := by
  have hnone : ∀ e, ¬ (start sketches parent forest progs).At (Pc.Inserting e) := by
    rintro e ⟨t, h⟩
    cases h
  have hgraph := forestGraph_of_not_at hnone
  exact ⟨hgraph ▸ hspans, hbelow, fun e he => absurd he (hnone e), fun u v huv => .inl (hle (hgraph ▸ huv))⟩

/-- the forest stays as it is -/
theorem ForestInv.frame (h : ForestInv G s) (ho : Ordered (rank priority) s.parent)
    (hq : Quiet (rank priority) s.parent s'.parent) (hforest : s'.spanningForest = s.spanningForest)
    (hins : ∀ e, s'.At (Pc.Inserting e) ↔ s.At (Pc.Inserting e)) (hgood : ∀ e, s.Good e → s'.Good e) : ForestInv G s' := by
  have hgraph : s'.forestGraph = s.forestGraph := by
    ext u v
    simp only [forestGraph_adj, hforest, hins]
  refine ⟨hgraph ▸ h.spans.quiet ho hq, hforest ▸ h.below, fun e he => h.distinct e ((hins e).1 he), fun u v huv => ?_⟩
  exact (h.edges u v (hgraph ▸ huv)).imp_right (Or.imp (hgood _) (hgood _))

section cases

variable {t : Fin T} {acts : List (Act P n)} {e : Fin n × Fin n}

/-- a link comes with its edge -/
theorem ForestInv.linked (h : ForestInv G s) (ho : Ordered (rank priority) s.parent)
    (hthr : s'.thr = Function.update s.thr t ⟨acts, .insert e⟩) (hold : ∀ e, ¬ Pc.Inserting e (s.thr t).pc)
    (hsampled : s'.sampled = s.sampled) (hforest : s'.spanningForest = s.spanningForest)
    (hl : Links (rank priority) s.parent s'.parent e.1 e.2) (hgood : s.Good e) : ForestInv G s' := by
  have hins : ∀ e', s'.At (Pc.Inserting e') ↔ e' = e ∨ s.At (Pc.Inserting e') := fun e' => by
    rw [at_gain hthr (hold e'), Pc.Inserting, Pc.insert.injEq, eq_comm]
  have hne : e.1 ≠ e.2 := by
    intro he
    refine hl.not_same ho ?_
    rw [he]
  have hgraph : s'.forestGraph = s.forestGraph ⊔ SimpleGraph.edge e.1 e.2 := by
    ext u v
    simp only [forestGraph_adj, hins, hforest, SimpleGraph.sup_adj, SimpleGraph.edge_adj, Prod.ext_iff]
    grind
  have hgood' := good_congr hsampled
  refine ⟨hgraph ▸ h.spans.link ho hl, hforest ▸ h.below, fun e' he' => ?_, fun u v huv => ?_⟩
  · rcases (hins e').1 he' with rfl | he'
    · exact hne
    · exact h.distinct e' he'
  · rw [hgraph, SimpleGraph.sup_adj, SimpleGraph.edge_adj] at huv
    rw [hgood']
    rcases huv with huv | ⟨⟨rfl, rfl⟩ | ⟨rfl, rfl⟩, -⟩
    · exact h.edges u v huv
    · exact .inr (.inl hgood)
    · exact .inr (.inr hgood)

/-- the edge is inserted, the smaller end first -/
theorem ForestInv.inserted (h : ForestInv G s) (hthr : s'.thr = Function.update s.thr t ⟨acts, .mark⟩)
    (hold : (s.thr t).pc = .insert e) (hparent : s'.parent = s.parent) (hsampled : s'.sampled = s.sampled)
    (hforest : s'.spanningForest = Function.update s.spanningForest (min e.1 e.2)
      (insert (max e.1 e.2) (s.spanningForest (min e.1 e.2)))) : ForestInv G s' := by
  have hmem : ∀ u v, v ∈ s'.spanningForest u ↔ (min e.1 e.2 = u ∧ max e.1 e.2 = v) ∨ v ∈ s.spanningForest u := by
    intro u v
    rw [hforest]
    by_cases hu : u = min e.1 e.2
    · subst hu
      simp [eq_comm]
    · simp [Function.update_of_ne hu, Ne.symm hu]
  have hgain : ∀ e', s'.At (Pc.Inserting e') → s.At (Pc.Inserting e') := by
    intro e' he'
    by_cases hee : e = e'
    · exact ⟨t, hee ▸ hold⟩
    · refine ((at_gain hthr ?_).1 he').resolve_left fun hc => by cases hc
      rw [hold, Pc.Inserting, Pc.insert.injEq]
      exact hee
  have hlose : ∀ e', s.At (Pc.Inserting e') → e = e' ∨ s'.At (Pc.Inserting e') := fun e' he' =>
    (at_lose hthr he').imp_left fun hc => by rwa [hold, Pc.Inserting, Pc.insert.injEq] at hc
  have hpair : ∀ u v, ((min e.1 e.2 = u ∧ max e.1 e.2 = v) ∨ (min e.1 e.2 = v ∧ max e.1 e.2 = u)) ↔ e = (u, v) ∨ e = (v, u) := by
    intro u v
    rcases le_total e.1 e.2 with hle | hle
    · simp only [min_eq_left hle, max_eq_right hle, Prod.ext_iff]
    · simp only [min_eq_right hle, max_eq_left hle, Prod.ext_iff]
      grind
  have hat : s.At (Pc.Inserting e) := ⟨t, hold⟩
  have hgraph : s'.forestGraph = s.forestGraph := by
    ext u v
    simp only [forestGraph_adj, hmem]
    refine and_congr_right fun _ => ?_
    constructor
    · intro huv
      have hcase : (e = (u, v) ∨ e = (v, u)) ∨ (v ∈ s.spanningForest u ∨ s.At (Pc.Inserting (u, v))) ∨
          u ∈ s.spanningForest v ∨ s.At (Pc.Inserting (v, u)) := by
        have := hgain (u, v)
        have := hgain (v, u)
        rw [← hpair]
        grind
      rcases hcase with (rfl | rfl) | hcase
      · exact .inl (.inr hat)
      · exact .inr (.inr hat)
      · exact hcase
    · intro huv
      have hcase : ((min e.1 e.2 = u ∧ max e.1 e.2 = v) ∨ (min e.1 e.2 = v ∧ max e.1 e.2 = u)) ∨
          (v ∈ s.spanningForest u ∨ s'.At (Pc.Inserting (u, v))) ∨ u ∈ s.spanningForest v ∨ s'.At (Pc.Inserting (v, u)) := by
        have := hlose (u, v)
        have := hlose (v, u)
        rw [hpair]
        grind
      grind
  have hgood := good_congr hsampled
  refine ⟨hparent ▸ hgraph ▸ h.spans, fun v w hw => ?_, fun e' he' => h.distinct e' (hgain e' he'), fun u v huv => ?_⟩
  · rcases (hmem v w).1 hw with ⟨rfl, rfl⟩ | hw
    · exact min_lt_max.2 (h.distinct e hat)
    · exact h.below v w hw
  · rw [hgood]
    exact h.edges u v (hgraph ▸ huv)

end cases

theorem outcomePc_not_inserting {x : Outcome (Fin n)} (e : Fin n × Fin n) : ¬ Pc.Inserting e (outcomePc x) := by
  cases x <;> simp [outcomePc, Pc.Inserting]

theorem Pc.Outside.not_inserting {pc : Pc n} (h : pc.Outside) (e : Fin n × Fin n) : ¬ Pc.Inserting e pc := by
  rintro rfl
  exact h

/-- **The forest of a round**: each step keeps it -/
theorem ForestInv.step (hdsu : DsuInv priority s) (hsim : SimInv σ s) (h : ForestInv G s) {l : Fin T × Side}
    (hs : Boruvka.step priority r s l = some s') : ForestInv G s' := by
  obtain ⟨t, o⟩ := l
  obtain ⟨acts, pc, hthr, hcase⟩ := step_shared hs
  have hstay : s'.parent = s.parent → Quiet (rank priority) s.parent s'.parent := fun hp => by
    rw [hp]
    exact Quiet.refl _ _
  rcases hcase with ⟨hold, hnew, hshared⟩ | ⟨x, hold, rfl, hshared⟩ | ⟨e, m, hold, hshared, hpc⟩ | ⟨e, hold, rfl, hshared⟩ |
    ⟨hold, rfl, hshared⟩
  · obtain ⟨hparent, hforest, -, hsampled⟩ := Shared.mk.inj hshared
    exact h.frame hdsu.ord (hstay hparent) hforest
      (fun e => at_keep hthr (iff_of_false (hold.not_inserting e) (hnew.not_inserting e))) fun e he => good_congr hsampled ▸ he
  · obtain ⟨hparent, hforest, -, hsampled⟩ := Shared.mk.inj hshared
    refine h.frame hdsu.ord (hstay hparent) hforest
      (fun e => at_keep hthr (iff_of_false (hold.not_inserting e) (outcomePc_not_inserting e))) fun e he => ?_
    obtain ⟨y, hy, he⟩ := he
    exact ⟨y, by rw [hsampled]; exact List.mem_cons_of_mem _ hy, he⟩
  · -- an operation of a call of `merge`
    obtain ⟨hparent, hforest, -, hsampled⟩ := Shared.mk.inj hshared
    have hpost := MergePc.step_spec hdsu.ord (hdsu.calls t e m hold).1 o
    have hnone : ∀ e', ¬ Pc.Inserting e' (s.thr t).pc := fun e' => by
      rw [hold]
      simp [Pc.Inserting]
    have hgood : ∀ e, s.Good e → s'.Good e := fun e he => good_congr hsampled ▸ he
    rw [← hparent] at hpost
    rcases hst : (m.step priority s.parent o).2 with m' | ret <;> rw [hst] at hpost hpc
    · subst hpc
      exact h.frame hdsu.ord hpost.1 hforest (fun e' => at_keep hthr (iff_of_false (hnone e') (by simp [Pc.Inserting]))) hgood
    · rcases hpost with ⟨hret, hl⟩ | ⟨hret, hq, -⟩
      · simp only [hret, if_true] at hpc
        exact h.linked hdsu.ord (hpc ▸ hthr) hnone hsampled hforest hl (hsim.good e ⟨t, m, hold⟩)
      · simp only [hret, Bool.false_eq_true, if_false] at hpc
        subst hpc
        exact h.frame hdsu.ord hq hforest (fun e' => at_keep hthr (iff_of_false (hnone e') (by simp [Pc.Inserting]))) hgood
  · obtain ⟨hparent, hforest, -, hsampled⟩ := Shared.mk.inj hshared
    exact h.inserted hthr hold hparent hsampled hforest
  · obtain ⟨hparent, hforest, -, hsampled⟩ := Shared.mk.inj hshared
    exact h.frame hdsu.ord (hstay hparent) hforest
      (fun e => at_keep hthr (by rw [hold]; simp [Pc.Inserting])) fun e he => good_congr hsampled ▸ he

end GraphStreamingCC.Boruvka
