/-
The loop of `boruvka_emulation` (src/cc_sketch_alg.cpp).

A round, `create_merge_instructions` and the code between them run one after another; `join` is the end of a parallel
region, with the sequential code behind it. The rounds are those of `Boruvka.step`, with the iterations of
`run_round_zero` given to the threads by `owner` in round 0.

`within_budget`: the loop has no counter, but past the last sample `range_merge` leaves a sketch from which `sample`
throws. So a round `num_samples` throws (`OnceInv.err`: some supernode is always sampled), every earlier round takes its
samples from its own columns and does not throw, and no schedule runs for ever, but one in which compare-exchanges fail
spuriously again and again.
-/
import GraphStreamingCC.Boruvka.ExactlyOnce
import GraphStreamingCC.Boruvka.Progress

namespace GraphStreamingCC.Boruvka.Emulation

open Dsu ParentForest Runs

variable {P : Params} {n T : ℕ}

/-! ## The machine -/

inductive Phase (P : Params) (n T : ℕ) where
  /-- in `perform_boruvka_round` -/
  | round (mergeInstr : Fin n → MergeInstr n) (w : Boruvka.St P n T)
  /-- in `create_merge_instructions`, behind the round that ended in w; the union-find is that of c -/
  | create (w : Boruvka.St P n T) (c : Create.St n T)
  | returned (lastQueryRounds : ℕ) (w : Boruvka.St P n T)
  | threw (err : OutOfSamplesException) (w : Boruvka.St P n T)

structure St (P : Params) (n T : ℕ) where
  roundNum : ℕ
  phase : Phase P n T
  /-- what `perform_boruvka_round` has returned, the latest first; no step reads it -/
  modified : List Bool

/-- the acts of the threads in round `curRound` -/
def roundActs (owner : Fin n → Fin T) (curRound : ℕ) (mergeInstr : Fin n → MergeInstr n) (sketches : Fin n → Sketch P) :
    Fin T → List (Act P n) :=
  if curRound = 0 then roundZeroActs owner else fun t => threadActs mergeInstr sketches curRound T t

/-- `perform_boruvka_round` is called -/
def performBoruvkaRound (owner : Fin n → Fin T) (curRound : ℕ) (mergeInstr : Fin n → MergeInstr n)
    (sketches : Fin n → Sketch P) (parent : Fin n → Fin n) (spanningForest : Fin n → Finset (Fin n)) : Phase P n T :=
  .round mergeInstr (Boruvka.start sketches parent spanningForest (roundActs owner curRound mergeInstr sketches))

/-- before the loop: `dsu.reset()`, `merge_instr[i] = {i, i}`, `spanning_forest[i].clear()` -/
def start (owner : Fin n → Fin T) (sketches : Fin n → Sketch P) : St P n T :=
  ⟨0, performBoruvkaRound owner 0 (Create.ownInstr n) sketches id fun _ => ∅, []⟩

inductive Label (n T : ℕ) where
  | thread (t : Fin T) (o : Side)
  | create (l : Create.Label n T)
  | join

instance (w : Boruvka.St P n T) : Decidable (Boruvka.Done w) :=
  inferInstanceAs (Decidable (∀ t, (w.thr t).acts = [] ∧ (w.thr t).pc = .idle))

/-- all threads have reached the end of the parallel region -/
def join (owner : Fin n → Fin T) (s : St P n T) : Option (St P n T) :=
  match s.phase with
  | .round mergeInstr w =>
    if Boruvka.Done w then
      some <| match w.err with
      | some e => { s with phase := .threw e w }
      | none =>
        { s with
          modified := w.modified :: s.modified
          phase := if w.modified then .create w (Create.start mergeInstr w.parent) else .returned s.roundNum w }
    else none
  | .create w c =>
    if Create.Done c then
      some { s with
        roundNum := s.roundNum + 1
        phase := performBoruvkaRound owner (s.roundNum + 1) c.mergeInstr w.sketches c.parent w.spanningForest }
    else none
  | .returned .. | .threw .. => none

def step (owner : Fin n → Fin T) (priority : Fin n → ℕ) (s : St P n T) : Label n T → Option (St P n T)
  | .thread t o =>
    match s.phase with
    | .round mergeInstr w =>
      (Boruvka.step priority s.roundNum w (t, o)).map fun w' => { s with phase := .round mergeInstr w' }
    | .create .. | .returned .. | .threw .. => none
  | .create l =>
    match s.phase with
    | .create w c => (Create.step c l).map fun c' => { s with phase := .create w c' }
    | .round .. | .returned .. | .threw .. => none
  | .join => join owner s

/-- the call is over -/
def Phase.Ended : Phase P n T → Prop
  | .returned .. | .threw .. => True
  | .round .. | .create .. => False

/-- the sketches that the threads are about to sample -/
def Phase.About (skt : Sketch P) : Phase P n T → Prop
  | .round _ w => ∃ t, skt ∈ w.about t
  | .create .. | .returned .. | .threw .. => False

/-- a compare-exchange fails although the item is still its own parent -/
def Spurious (s : St P n T) : Label n T → Prop
  | .thread t o =>
    match s.phase with
    | .round _ w => Boruvka.Spurious w (t, o)
    | .create .. | .returned .. | .threw .. => False
  | .create _ | .join => False

/-! ## The plan of a round -/

section plan

variable {sketches : Fin n → Sketch P} {mergeInstr : Fin n → MergeInstr n} {r : ℕ}

theorem ownInstr_grouped (n : ℕ) : Grouped (Create.ownInstr n) := ⟨Create.ownInstr_bijective n, fun _ _ h => h⟩

theorem supernode_ownInstr (sketches : Fin n → Sketch P) :
    supernode (Create.ownInstr n) sketches = fun v => (sketches v).buckets := by
  funext v
  have hv : v ∈ Finset.univ.filter fun i => (Create.ownInstr n i).root = v := Finset.mem_filter.2 ⟨Finset.mem_univ v, rfl⟩
  exact Finset.sum_eq_single_of_mem v hv fun i hi hne => absurd (show i = v from (Finset.mem_filter.1 hi).2) hne

/-- round 0 has a plan as the later ones do: every vertex is its own root -/
theorem plan_round (owner : Fin n → Fin T) (hn : n < 2 ^ 32) (hT : 0 < T) (hTn : T ≤ n) (hg : Grouped mergeInstr)
    (hzero : r = 0 → mergeInstr = Create.ownInstr n ∧ ∀ v, (sketches v).sampleIdx = 0) :
    ∃ slot, Plan r sketches (roundActs owner r mergeInstr sketches) (fun ρ => lo mergeInstr ρ < hi mergeInstr ρ) slot
      (supernode mergeInstr sketches) := by
  by_cases hr : r = 0
  · subst hr
    obtain ⟨rfl, hidx⟩ := hzero rfl
    have hpresent : (fun ρ => lo (Create.ownInstr n) ρ < hi (Create.ownInstr n) ρ) = fun _ => True := by
      funext ρ
      rw [hg.present_iff]
      exact eq_true ⟨ρ, rfl⟩
    refine ⟨fun _ => 0, ?_⟩
    rw [hpresent, supernode_ownInstr, roundActs, if_pos rfl]
    exact plan_roundZero hidx owner
  · refine ⟨Boruvka.owner mergeInstr T, ?_⟩
    rw [roundActs, if_neg hr]
    exact plan_threadActs sketches r hg hn hTn hT

end plan

/-! ## The invariant -/

/-- a sample changes the sample index of a vertex sketch at most -/
theorem sample_buckets {w w' : Boruvka.St P n T} {t : Fin T} {acts : List (Act P n)} {ρ : Fin n} {skt : Sketch P}
    (put : Boruvka.St P n T → Sketch P → Boruvka.St P n T) {v : Fin n}
    (hput : ∀ (u : Boruvka.St P n T) skt', u.sketches = w.sketches → skt'.buckets = skt.buckets →
      ((put u skt').sketches v).buckets = (w.sketches v).buckets)
    (hs : w.sample t acts ρ skt put = some w') : (w'.sketches v).buckets = (w.sketches v).buckets := by
  unfold Boruvka.St.sample Sketch.sample at hs
  by_cases hidx : skt.sampleIdx ≥ P.numSamples
  · rw [if_pos hidx] at hs
    cases hs
    rfl
  · rw [if_neg hidx] at hs
    obtain ⟨pc, -, rfl⟩ := Option.map_eq_some_iff.1 hs
    exact hput _ _ rfl rfl

theorem sketches_buckets {priority : Fin n → ℕ} {r : ℕ} {w w' : Boruvka.St P n T} {l : Fin T × Side}
    (hs : Boruvka.step priority r w l = some w') (v : Fin n) : (w'.sketches v).buckets = (w.sketches v).buckets := by
  have hkeep : ∀ (u : Boruvka.St P n T) (skt' : Sketch P), u.sketches = w.sketches →
      (u.sketches v).buckets = (w.sketches v).buckets := fun u _ hu => by rw [hu]
  unfold Boruvka.step at hs
  split at hs
  next => cases hs
  next a acts hold =>
    cases a with
    | sampleVertex u =>
      refine sample_buckets (Boruvka.St.putVertex u) (fun x skt' hx hskt => ?_) hs
      by_cases hv : v = u
      · subst hv
        simp only [Boruvka.St.putVertex, Function.update_self]
        exact hskt
      · simp only [Boruvka.St.putVertex, Function.update_of_ne hv]
        rw [hx]
    | sampleLocal root skt => exact sample_buckets (fun s _ => s) (fun x skt' hx _ => hkeep x skt' hx) hs
    | setNeeded | mergeGlobal =>
      cases hs
      rfl
    | undefined => cases hs
  next acts id root hold => exact sample_buckets (Boruvka.St.putGlobal id) (fun x skt' hx _ => hkeep x skt' hx) hs
  next acts e m hold => split at hs <;> cases hs <;> rfl
  next acts e hold =>
    cases hs
    rfl
  next acts hold =>
    cases hs
    rfl

/-- a supernode is given by the buckets -/
theorem supernode_congr {sketches sketches' : Fin n → Sketch P} (h : ∀ v, (sketches' v).buckets = (sketches v).buckets)
    (mergeInstr : Fin n → MergeInstr n) : supernode mergeInstr sketches' = supernode mergeInstr sketches := by
  funext ρ
  exact Finset.sum_congr rfl fun i _ => h _

/-- in round r; the sketches at its begin have the buckets of the first ones, with other sample indices -/
structure RoundInv (owner : Fin n → Fin T) (priority : Fin n → ℕ) (sketches : Fin n → Sketch P) (r : ℕ)
    (mergeInstr : Fin n → MergeInstr n) (w : Boruvka.St P n T) : Prop where
  grouped : Grouped mergeInstr
  dsu : DsuInv priority w
  buckets : ∀ v, (w.sketches v).buckets = (sketches v).buckets
  once : ∃ skts slot,
    Plan r skts (roundActs owner r mergeInstr skts) (fun ρ => lo mergeInstr ρ < hi mergeInstr ρ) slot
      (supernode mergeInstr sketches) ∧
    OnceInv r skts (roundActs owner r mergeInstr skts) (fun ρ => lo mergeInstr ρ < hi mergeInstr ρ) slot
      (supernode mergeInstr sketches) w

section round

variable {owner : Fin n → Fin T} {priority : Fin n → ℕ} {sketches : Fin n → Sketch P} {r : ℕ} {mergeInstr : Fin n → MergeInstr n}
  {w w' : Boruvka.St P n T}

theorem roundInv_start {skts : Fin n → Sketch P} {parent : Fin n → Fin n} (forest : Fin n → Finset (Fin n)) (hn : n < 2 ^ 32)
    (hT : 0 < T) (hTn : T ≤ n) (hg : Grouped mergeInstr) (ho : Ordered (rank priority) parent)
    (hb : ∀ v, (skts v).buckets = (sketches v).buckets)
    (hzero : r = 0 → mergeInstr = Create.ownInstr n ∧ ∀ v, (skts v).sampleIdx = 0) :
    RoundInv owner priority sketches r mergeInstr (Boruvka.start skts parent forest (roundActs owner r mergeInstr skts)) := by
  obtain ⟨slot, hp⟩ := plan_round owner hn hT hTn hg hzero
  rw [supernode_congr hb] at hp
  exact ⟨hg, ⟨ho, fun t e m h => by cases h⟩, hb, skts, slot, hp, onceInv_start hp parent forest⟩

theorem RoundInv.step (h : RoundInv owner priority sketches r mergeInstr w) {l : Fin T × Side}
    (hs : Boruvka.step priority r w l = some w') : RoundInv owner priority sketches r mergeInstr w' := by
  obtain ⟨skts, slot, hp, ho⟩ := h.once
  exact ⟨h.grouped, (h.dsu.step hs).1, fun v => (sketches_buckets hs v).trans (h.buckets v), skts, slot, hp, ho.step hp hs⟩

/-- **A round throws if and only if it is round `num_samples`**: some supernode is sampled in it -/
theorem RoundInv.err_iff (h : RoundInv owner priority sketches r mergeInstr w) (hn : 0 < n) (hd : Boruvka.Done w) :
    w.err ≠ none ↔ P.numSamples ≤ r := by
  obtain ⟨skts, slot, hp, ho⟩ := h.once
  have hsampled : w.sampled ≠ [] := by
    intro hnil
    have hone := ho.all hd ((h.grouped.present_iff _).2 ⟨⟨0, hn⟩, rfl⟩)
    rw [hnil] at hone
    cases hone
  rw [ho.err, and_iff_left hsampled]

end round

/-- in `create_merge_instructions`, called with these instructions -/
structure CreateInv (priority : Fin n → ℕ) (c : Create.St n T) : Prop where
  sorting : ∃ m0, Function.Bijective (fun i : Fin n => (m0 i).child) ∧ Create.Inv m0 c
  roots : ∃ parent, Create.RootInv priority parent (Same parent) c
  climb : Create.FindsClimb priority c

/-- what holds between any two steps of `boruvka_emulation` -/
def Inv (owner : Fin n → Fin T) (priority : Fin n → ℕ) (sketches : Fin n → Sketch P) (s : St P n T) : Prop :=
  match s.phase with
  | .round mergeInstr w => s.roundNum ≤ P.numSamples ∧ s.modified = List.replicate s.roundNum true ∧
      RoundInv owner priority sketches s.roundNum mergeInstr w
  | .create w c => s.roundNum < P.numSamples ∧ s.modified = List.replicate (s.roundNum + 1) true ∧
      (∀ v, (w.sketches v).buckets = (sketches v).buckets) ∧ CreateInv priority c
  | .returned lastQueryRounds w => s.roundNum = lastQueryRounds ∧ lastQueryRounds < P.numSamples ∧
      s.modified = false :: List.replicate lastQueryRounds true ∧ ∀ v, (w.sketches v).buckets = (sketches v).buckets
  | .threw _ w => s.roundNum = P.numSamples ∧ s.modified = List.replicate P.numSamples true ∧
      ∀ v, (w.sketches v).buckets = (sketches v).buckets

section run

variable {owner : Fin n → Fin T} {priority : Fin n → ℕ} {sketches : Fin n → Sketch P} {s s' : St P n T}

theorem inv_start (hn : n < 2 ^ 32) (hT : 0 < T) (hTn : T ≤ n) (hidx : ∀ v, (sketches v).sampleIdx = 0) :
    Inv owner priority sketches (start owner sketches) := by
  refine ⟨Nat.zero_le _, rfl, roundInv_start _ hn hT hTn (ownInstr_grouped n) (fun u hu => absurd rfl hu) (fun _ => rfl) ?_⟩
  exact fun _ => ⟨rfl, hidx⟩

theorem createInv_start (hTn : T ≤ n) {mergeInstr : Fin n → MergeInstr n} {parent : Fin n → Fin n} (hg : Grouped mergeInstr)
    (ho : Ordered (rank priority) parent) : CreateInv priority (Create.start mergeInstr parent : Create.St n T) :=
  ⟨⟨mergeInstr, hg.children, Create.inv_start hTn mergeInstr parent⟩, ⟨parent, Create.rootInv_start ho mergeInstr⟩,
    Create.findsClimb_start mergeInstr⟩

theorem CreateInv.step (hn : n < 2 ^ 32) (hT : 0 < T) (hTn : T ≤ n) {c c' : Create.St n T} (h : CreateInv priority c)
    {l : Create.Label n T} (hs : Create.step c l = some c') :
    CreateInv priority c' ∧ c'.rank (rank priority) < c.rank (rank priority) := by
  obtain ⟨m0, hm, hinv⟩ := h.sorting
  obtain ⟨parent, hroots⟩ := h.roots
  obtain ⟨hclimb, hlt⟩ := Create.rank_step hroots h.climb hs
  refine ⟨⟨⟨m0, hm, Create.step_inv hn hT hTn hm hinv hs⟩, ⟨parent, ?_⟩, hclimb⟩, hlt⟩
  exact hroots.step_same hs

/-- when it returns, the instructions are grouped -/
theorem CreateInv.grouped {c : Create.St n T} (h : CreateInv priority c) (hd : Create.Done c) : Grouped c.mergeInstr := by
  obtain ⟨m0, -, hinv⟩ := h.sorting
  obtain ⟨parent, hroots⟩ := h.roots
  exact (hinv.grouped hd hroots.recorded).1

/-- what comes behind a parallel region: the exception, another round after all, or the end of the loop -/
theorem join_cases (hs : join owner s = some s') :
    (∃ mergeInstr w, s.phase = .round mergeInstr w ∧ Boruvka.Done w ∧
      ((∃ e, w.err = some e ∧ s' = { s with phase := .threw e w }) ∨
        (w.err = none ∧ w.modified = true ∧
          s' = { s with modified := true :: s.modified, phase := .create w (Create.start mergeInstr w.parent) }) ∨
        (w.err = none ∧ w.modified = false ∧
          s' = { s with modified := false :: s.modified, phase := .returned s.roundNum w }))) ∨
    ∃ w c, s.phase = .create w c ∧ Create.Done c ∧ s' = { s with
      roundNum := s.roundNum + 1
      phase := performBoruvkaRound owner (s.roundNum + 1) c.mergeInstr w.sketches c.parent w.spanningForest } := by
  unfold join at hs
  split at hs
  next mergeInstr w hphase =>
    by_cases hd : Boruvka.Done w
    · rw [if_pos hd] at hs
      refine .inl ⟨mergeInstr, w, hphase, hd, ?_⟩
      cases he : w.err with
      | some e =>
        simp only [he, Option.some.injEq] at hs
        exact .inl ⟨e, rfl, hs.symm⟩
      | none =>
        simp only [he, Option.some.injEq] at hs
        cases hw : w.modified with
        | true => exact .inr (.inl ⟨rfl, rfl, by rw [← hs, hw]; rfl⟩)
        | false => exact .inr (.inr ⟨rfl, rfl, by rw [← hs, hw]; rfl⟩)
    · rw [if_neg hd] at hs
      cases hs
  next w c hphase =>
    by_cases hd : Create.Done c
    · rw [if_pos hd] at hs
      exact .inr ⟨w, c, hphase, hd, (Option.some.inj hs).symm⟩
    · rw [if_neg hd] at hs
      cases hs
  next => cases hs
  next => cases hs

theorem inv_join (hn : n < 2 ^ 32) (hn0 : 0 < n) (hT : 0 < T) (hTn : T ≤ n) (h : Inv owner priority sketches s)
    (hs : join owner s = some s') : Inv owner priority sketches s' := by
  unfold Inv at h
  rcases join_cases hs with ⟨mergeInstr, w, hphase, hd, hcase⟩ | ⟨w, c, hphase, hd, rfl⟩
  · rw [hphase] at h
    obtain ⟨hr, hmodified, hround⟩ := h
    have herr := hround.err_iff hn0 hd
    rcases hcase with ⟨e, he, rfl⟩ | ⟨he, hw, rfl⟩ | ⟨he, hw, rfl⟩
    · have hlast : s.roundNum = P.numSamples := le_antisymm hr (herr.1 (by rw [he]; exact Option.some_ne_none e))
      exact ⟨hlast, hlast ▸ hmodified, hround.buckets⟩
    · have hlt : s.roundNum < P.numSamples := not_le.1 fun hle => herr.2 hle he
      exact ⟨hlt, by simp only [hmodified]; rfl, hround.buckets, createInv_start hTn hround.grouped hround.dsu.ord⟩
    · have hlt : s.roundNum < P.numSamples := not_le.1 fun hle => herr.2 hle he
      exact ⟨rfl, hlt, by simp only [hmodified], hround.buckets⟩
  · rw [hphase] at h
    obtain ⟨hr, hmodified, hb, hcreate⟩ := h
    obtain ⟨parent, hroots⟩ := hcreate.roots
    exact ⟨hr, hmodified, roundInv_start _ hn hT hTn (hcreate.grouped hd) hroots.ord hb fun h0 => absurd h0 (Nat.succ_ne_zero _)⟩

theorem inv_step (hn : n < 2 ^ 32) (hn0 : 0 < n) (hT : 0 < T) (hTn : T ≤ n) (h : Inv owner priority sketches s) {l : Label n T}
    (hs : step owner priority s l = some s') : Inv owner priority sketches s' := by
  cases l with
  | thread t o =>
    simp only [step] at hs
    unfold Inv at h
    split at hs
    next mergeInstr w hphase =>
      rw [hphase] at h
      obtain ⟨w', hw, rfl⟩ := Option.map_eq_some_iff.1 hs
      exact ⟨h.1, h.2.1, h.2.2.step hw⟩
    all_goals cases hs
  | create l =>
    simp only [step] at hs
    unfold Inv at h
    split at hs
    next w c hphase =>
      rw [hphase] at h
      obtain ⟨c', hc, rfl⟩ := Option.map_eq_some_iff.1 hs
      exact ⟨h.1, h.2.1, h.2.2.1, (h.2.2.2.step hn hT hTn hc).1⟩
    all_goals cases hs
  | join => exact inv_join hn hn0 hT hTn h hs

/-! ## The end -/

/-- rounds left, the part of the round, and what is left in it -/
def rank (priority : Fin n → ℕ) (s : St P n T) : ℕ ×ₗ (ℕ ×ₗ ℕ) :=
  match s.phase with
  | .round _ w => toLex (P.numSamples + 1 - s.roundNum, toLex (6, ∑ t, (w.thr t).weight (Dsu.rank priority)))
  | .create _ c => toLex (P.numSamples + 1 - s.roundNum, c.rank (Dsu.rank priority))
  | .returned .. | .threw .. => toLex (0, toLex (0, 0))

/-- **Every step but a spurious failure lowers the rank.** -/
theorem rank_step (hn : n < 2 ^ 32) (hT : 0 < T) (hTn : T ≤ n) (h : Inv owner priority sketches s) {l : Label n T}
    (hs : step owner priority s l = some s') (hns : ¬ Spurious s l) : rank priority s' < rank priority s := by
  cases l with
  | thread t o =>
    simp only [step] at hs
    unfold Inv at h
    split at hs
    next mergeInstr w hphase =>
      rw [hphase] at h
      obtain ⟨w', hw, rfl⟩ := Option.map_eq_some_iff.1 hs
      simp only [Spurious, hphase] at hns
      have hlt := (h.2.2.dsu.step hw).2.2 hns
      simp only [rank, hphase]
      exact Prod.Lex.toLex_lt_toLex.2 (.inr ⟨rfl, Create.rank_lt_of_left hlt⟩)
    all_goals cases hs
  | create l =>
    simp only [step] at hs
    unfold Inv at h
    split at hs
    next w c hphase =>
      rw [hphase] at h
      obtain ⟨c', hc, rfl⟩ := Option.map_eq_some_iff.1 hs
      simp only [rank, hphase]
      exact Prod.Lex.toLex_lt_toLex.2 (.inr ⟨rfl, (h.2.2.2.step hn hT hTn hc).2⟩)
    all_goals cases hs
  | join =>
    unfold Inv at h
    rcases join_cases hs with ⟨mergeInstr, w, hphase, hd, hcase⟩ | ⟨w, c, hphase, hd, rfl⟩
    · rw [hphase] at h
      have hpos : 0 < P.numSamples + 1 - s.roundNum := by omega
      rcases hcase with ⟨e, he, rfl⟩ | ⟨he, hw, rfl⟩ | ⟨he, hw, rfl⟩
      · simp only [rank, hphase]
        exact Prod.Lex.toLex_lt_toLex.2 (.inl hpos)
      · simp only [rank, hphase]
        exact Prod.Lex.toLex_lt_toLex.2 (.inr ⟨rfl, Create.rank_lt_of_stage (by norm_num)⟩)
      · simp only [rank, hphase]
        exact Prod.Lex.toLex_lt_toLex.2 (.inl hpos)
    · rw [hphase] at h
      simp only [rank, hphase, performBoruvkaRound]
      exact Prod.Lex.toLex_lt_toLex.2 (.inl (by omega))

/-- until the call is over, some step can be made, if good samples name two vertices -/
theorem Inv.enabled (h : Inv owner priority sketches s) (hend : ¬ s.phase.Ended)
    (hdec : ∀ skt, s.phase.About skt → Decodes n skt) : ∃ l s', step owner priority s l = some s' := by
  unfold Inv at h
  cases hphase : s.phase with
  | round mergeInstr w =>
    rw [hphase] at h hdec
    by_cases hd : Boruvka.Done w
    · exact ⟨.join, _, by simp only [step, join, hphase]; rw [if_pos hd]⟩
    · obtain ⟨t, ht⟩ := not_forall.1 hd
      obtain ⟨skts, slot, hp, ho⟩ := h.2.2.once
      obtain ⟨w', hw⟩ := Boruvka.enabled (fun hmem => hp.safe t ((ho.suffix t).subset hmem))
        (fun skt hskt => hdec skt ⟨t, hskt⟩) ht priority s.roundNum .left
      exact ⟨.thread t .left, _, by simp only [step, hphase, hw]; rfl⟩
  | create w c =>
    rw [hphase] at h
    by_cases hd : Create.Done c
    · exact ⟨.join, _, by simp only [step, join, hphase]; rw [if_pos hd]⟩
    · have hdef : c.phase ≠ .undefined := by
        intro hc
        obtain ⟨m0, -, hinv⟩ := h.2.2.2.sorting
        rw [Create.Inv, hc] at hinv
        exact hinv
      obtain ⟨l, c', hc⟩ := Create.enabled hdef hd
      exact ⟨.create l, _, by simp only [step, hphase, hc]; rfl⟩
  | returned | threw =>
    rw [hphase] at hend
    exact absurd trivial hend

theorem run_inv (hn : n < 2 ^ 32) (hT : 0 < T) (hTn : T ≤ n) (hidx : ∀ v, (sketches v).sampleIdx = 0) {ls : List (Label n T)}
    (hs : exec (step owner priority) (start owner sketches) ls = some s) : Inv owner priority sketches s :=
  exec_invariant _ (fun _ _ _ h hs => inv_step hn (hT.trans_le hTn) hT hTn h hs) (inv_start hn hT hTn hidx) hs

/-- a call goes on for ever only if compare-exchanges fail spuriously again and again -/
theorem again_and_again_spurious (hn : n < 2 ^ 32) (hT : 0 < T) (hTn : T ≤ n) (hidx : ∀ v, (sketches v).sampleIdx = 0)
    {states : ℕ → St P n T} {ls : ℕ → Label n T} (h : Endless (step owner priority) states ls)
    (h0 : states 0 = start owner sketches) (k : ℕ) : ∃ j, k ≤ j ∧ Spurious (states j) (ls j) := by
  have hinv0 : Inv owner priority sketches (states 0) := h0 ▸ inv_start hn hT hTn hidx
  refine h.again_and_again _ (rank priority) (fun s l s' hinv hs => ?_) hinv0 k
  exact ⟨inv_step hn (hT.trans_le hTn) hT hTn hinv hs, rank_step hn hT hTn hinv hs⟩

/-- the next sample of the sketch is number r, and it reads the columns of that sample only, and the deterministic
bucket -/
def SamplesFrom (r : ℕ) (skt : Sketch P) : Prop :=
  ∃ hr : r < P.numSamples, skt.sampleIdx = r ∧ ∀ skt' : Sketch P, skt'.sampleIdx = r →
    skt'.buckets (Sketch.detBucket P) = skt.buckets (Sketch.detBucket P) →
    (∀ c d (hc : c ∈ Sketch.columns P r) (hd : d < P.bktPerCol), skt'.buckets (Sketch.position P (Sketch.lt_numColumns hr hc) hd) =
      skt.buckets (Sketch.position P (Sketch.lt_numColumns hr hc) hd)) →
    skt'.sampleCall.2 = skt.sampleCall.2

/-- the samples of a round before round `num_samples` -/
theorem RoundInv.samplesFrom {r : ℕ} {mergeInstr : Fin n → MergeInstr n} {w : Boruvka.St P n T}
    (h : RoundInv owner priority sketches r mergeInstr w) (hr : r < P.numSamples) {x : Fin n × Sketch P} (hx : x ∈ w.sampled) :
    SamplesFrom r x.2 := by
  obtain ⟨skts, slot, -, ho⟩ := h.once
  have hidx : x.2.sampleIdx = r := (ho.log x hx).1.trans (min_eq_left hr.le)
  refine ⟨hr, hidx, fun skt hskt hdet hcol => ?_⟩
  rw [Sketch.sampleCall_ok (hskt ▸ hr), Sketch.sampleCall_ok (hidx ▸ hr), hidx, hskt]
  exact congrArg Except.ok (Sketch.sampleAt_congr hr hdet hcol)

/-- **Boruvka ends within the sample budget.** A run is never in a later round than round `num_samples`. A call that
returns does so in an earlier round; one that throws does so in round `num_samples`, and every round before it has
returned true. The samples of an earlier round read the columns of their own round only, and the deterministic bucket.
Until the call is over, some step can be made, if the good samples name two vertices; and it goes on for ever only if
compare-exchanges fail spuriously again and again. -/
theorem within_budget (hn : n < 2 ^ 32) (hT : 0 < T) (hTn : T ≤ n) (hidx : ∀ v, (sketches v).sampleIdx = 0) :
    (∀ ls s, exec (step owner priority) (start owner sketches) ls = some s →
      s.roundNum ≤ P.numSamples ∧
      (∀ lastQueryRounds w, s.phase = .returned lastQueryRounds w →
        lastQueryRounds = s.roundNum ∧ lastQueryRounds < P.numSamples) ∧
      (∀ e w, s.phase = .threw e w → s.roundNum = P.numSamples ∧ s.modified = List.replicate P.numSamples true) ∧
      (∀ mergeInstr w, s.phase = .round mergeInstr w → s.roundNum < P.numSamples →
        ∀ x ∈ w.sampled, SamplesFrom s.roundNum x.2) ∧
      (¬ s.phase.Ended → (∀ skt, s.phase.About skt → Decodes n skt) → ∃ l s', step owner priority s l = some s')) ∧
    (∀ r r', r ≠ r' → Disjoint (Sketch.columns P r) (Sketch.columns P r')) ∧
    ∀ states ls, Endless (step owner priority) states ls → states 0 = start owner sketches →
      ∀ k, ∃ j, k ≤ j ∧ Spurious (states j) (ls j) := by
  refine ⟨fun ls s hs => ?_, fun _ _ => Sketch.columns_disjoint, fun states ls => again_and_again_spurious hn hT hTn hidx⟩
  have h := run_inv hn hT hTn hidx hs
  refine ⟨?_, fun k w hphase => ?_, fun e w hphase => ?_, fun mergeInstr w hphase hr x hx => ?_, h.enabled⟩
  · unfold Inv at h
    split at h
    · exact h.1
    · exact h.1.le
    · exact h.1.trans_le h.2.1.le
    · exact h.1.le
  · rw [Inv, hphase] at h
    exact ⟨h.1.symm, h.2.1⟩
  · rw [Inv, hphase] at h
    exact ⟨h.1, h.2.1⟩
  · rw [Inv, hphase] at h
    exact h.2.2.samplesFrom hr hx

/-- one sample; no bucket of these sketches passes the check, and the deterministic one is not zero -/
def failing : Params := ⟨fun _ _ => 1, 0, 1, 1, 1, false⟩

def failingSketch : Sketch failing := ⟨0, fun _ => ⟨1, 0⟩⟩

/-- one thread creates the instructions of round 1 -/
def failingCreate : List (Create.Label 2 1) :=
  List.flatten [List.replicate 10 (.thread (Threads.nth 0) .left),
    [.iterate (Threads.nth 0) [(Threads.fst, [Threads.fst]), (Threads.snd, [Threads.snd])]],
    List.replicate 2 (.thread (Threads.nth 0) .left), [.barrier, .thread (Threads.nth 0) .left, .barrier, .barrier, .barrier],
    List.replicate 2 (.thread (Threads.nth 0) .left)]

/-- both samples fail in round 0; those of round 1 throw -/
def failingRun : List (Label 2 1) :=
  List.flatten [List.replicate 4 (.thread (Threads.nth 0) .left), [.join], failingCreate.map .create,
    [.join, .thread (Threads.nth 0) .left, .thread (Threads.nth 0) .left, .join]]

theorem within_budget_failing : ∃ s, exec (step (fun _ : Fin 2 => (Threads.nth 0 : Fin 1)) fun u => u.val)
    (start (fun _ => Threads.nth 0) fun _ => failingSketch) failingRun = some s ∧ s.roundNum = 1 ∧ s.modified = [true] := by
  have hrun : ∃ s, exec (step (fun _ : Fin 2 => (Threads.nth 0 : Fin 1)) fun u => u.val)
      (start (fun _ => Threads.nth 0) fun _ => failingSketch) failingRun = some s ∧ ∃ e w, s.phase = .threw e w :=
    ⟨_, rfl, _, _, rfl⟩
  obtain ⟨s, hs, e, w, hphase⟩ := hrun
  have h := (within_budget (by norm_num) (by norm_num) (by norm_num) fun _ => rfl).1 failingRun s hs
  exact ⟨s, hs, h.2.2.1 e w hphase⟩

end run

end GraphStreamingCC.Boruvka.Emulation
