/-
The partitions that `boruvka_emulation` goes through (src/cc_sketch_alg.cpp) are a function of the sketches.

What `sample_supernode` learns in round r about a set of vertices depends on the set and on the vertex sketches
(`blockOutcome`). So the rounds are those of `Rounds.partitionAt` with this oracle, and the first settled one ends the
loop: `Follows` says this of a state, between any two steps. Neither the schedule nor the number of threads nor the
priorities of the union-find play a part (`schedule_independent`).

This needs that the supernodes of a round are the sets of the union-find. `create_merge_instructions` names each vertex
by what `find_root` returns, which is the root if the last load of the call gives a root (`FinalLoad`); otherwise a set
is cut into two supernodes, which are sampled separately (`schedule_dependent`).
-/
import GraphStreamingCC.Boruvka.Emulation
import GraphStreamingCC.Boruvka.Simulation
import GraphStreamingCC.Ingest.Batches

namespace GraphStreamingCC.Boruvka.Emulation

open Dsu Ingest ParentForest Rounds Runs

variable {P : Params} {n T : ℕ}

/-! ## The sample of a block -/

/-- what `sample_supernode` learns in round r about the vertices in B -/
def blockOutcome (sketches : Fin n → Sketch P) (r : ℕ) (B : Finset (Fin n)) : Outcome (Fin n) :=
  outcome n ⟨min r P.numSamples, ∑ u ∈ B, (sketches u).buckets⟩

/-- a sample reads its window only -/
theorem outcome_congr {skt skt' : Sketch P} {r : ℕ} (hidx : skt.sampleIdx = min r P.numSamples)
    (hidx' : skt'.sampleIdx = min r P.numSamples)
    (h : r < P.numSamples → ∀ b, Sketch.InWindow P r b → skt'.buckets b = skt.buckets b) : outcome n skt' = outcome n skt := by
  unfold outcome Sketch.sample
  rw [hidx, hidx']
  by_cases hr : r < P.numSamples
  · rw [min_eq_left hr.le, if_neg (not_le.2 hr), if_neg (not_le.2 hr), Sketch.sampleAt_window hr (h hr)]
  · rw [if_pos (by omega), if_pos (by omega)]

/-- the roots of the instructions name the blocks of the partition -/
structure Names (mergeInstr : Fin n → MergeInstr n) (σ : Setoid (Fin n)) (name : Fin n → Fin n) : Prop where
  root : ∀ i, (mergeInstr i).root = name (mergeInstr i).child
  mem : ∀ v, σ (name v) v
  same : ∀ u v, σ u v → name u = name v

variable {mergeInstr : Fin n → MergeInstr n} {σ : Setoid (Fin n)} {name : Fin n → Fin n}

theorem Names.eq_iff (h : Names mergeInstr σ name) {u v : Fin n} : name u = name v ↔ σ u v := by
  refine ⟨fun he => ?_, h.same u v⟩
  exact σ.trans (σ.symm (h.mem u)) (he ▸ h.mem v)

/-- a supernode is a block -/
theorem Names.supernode_eq (h : Names mergeInstr σ name) (hg : Grouped mergeInstr) (sketches : Fin n → Sketch P) (v : Fin n) :
    supernode mergeInstr sketches (name v) = ∑ u ∈ block σ v, (sketches u).buckets := by
  have hmem : ∀ i, (mergeInstr i).root = name v ↔ (mergeInstr i).child ∈ block σ v := fun i => by
    rw [h.root, h.eq_iff, mem_block]
  refine Finset.sum_bij (fun i _ => (mergeInstr i).child) (fun i hi => ?_) (fun i _ j _ hij => hg.children.1 hij) (fun u hu => ?_)
    fun i _ => rfl
  · exact (hmem i).1 (Finset.mem_filter.1 hi).2
  · obtain ⟨i, rfl⟩ := hg.children.2 u
    exact ⟨i, Finset.mem_filter.2 ⟨Finset.mem_univ i, (hmem i).2 hu⟩, rfl⟩

section round

variable {owner : Fin n → Fin T} {priority : Fin n → ℕ} {sketches : Fin n → Sketch P} {r : ℕ} {w : Boruvka.St P n T}

/-- a sample of the round is the sample of a block -/
theorem RoundInv.outcome_eq (h : RoundInv owner priority sketches r mergeInstr w) (hnames : Names mergeInstr σ name)
    {x : Fin n × Sketch P} (hx : x ∈ w.sampled) :
    ∃ v, x.1 = name v ∧ outcome n x.2 = blockOutcome sketches r (block σ v) := by
  obtain ⟨skts, slot, hp, ho⟩ := h.once
  obtain ⟨hidx, hbuckets⟩ := ho.log x hx
  obtain ⟨i, hi⟩ := (h.grouped.present_iff x.1).1 (ho.spent hp hx).1
  have hroot : x.1 = name (mergeInstr i).child := hi.symm.trans (hnames.root i)
  refine ⟨(mergeInstr i).child, hroot, outcome_congr rfl hidx fun hr b hb => ?_⟩
  rw [hbuckets hr b hb, hroot, hnames.supernode_eq h.grouped]

/-- at the end every block has been sampled -/
theorem RoundInv.exists_sampled (h : RoundInv owner priority sketches r mergeInstr w) (hnames : Names mergeInstr σ name)
    (hd : Boruvka.Done w) (v : Fin n) : ∃ x ∈ w.sampled, outcome n x.2 = blockOutcome sketches r (block σ v) := by
  obtain ⟨skts, slot, hp, ho⟩ := h.once
  obtain ⟨i, hi⟩ := h.grouped.children.2 v
  have hroot : (mergeInstr i).root = name v := by rw [hnames.root, ← hi]
  have htimes := ho.all hd ((h.grouped.present_iff (name v)).2 ⟨i, hroot⟩)
  obtain ⟨x, hx, hname⟩ := List.countP_pos_iff.1 (show 0 < times (name v) w.sampled by omega)
  obtain ⟨v', hv', he⟩ := h.outcome_eq hnames hx
  refine ⟨x, hx, ?_⟩
  rw [he, block_eq_iff.2 (hnames.eq_iff.1 (hv'.symm.trans (of_decide_eq_true hname)))]

theorem RoundInv.outcome_iff (h : RoundInv owner priority sketches r mergeInstr w) (hnames : Names mergeInstr σ name)
    (hd : Boruvka.Done w) (o : Outcome (Fin n)) :
    (∃ x ∈ w.sampled, outcome n x.2 = o) ↔ ∃ v, blockOutcome sketches r (block σ v) = o := by
  constructor
  · intro hx
    obtain ⟨x, hx, rfl⟩ := hx
    obtain ⟨v, -, he⟩ := h.outcome_eq hnames hx
    exact ⟨v, he.symm⟩
  · intro hv
    obtain ⟨v, rfl⟩ := hv
    exact h.exists_sampled hnames hd v

/-- **A round is a round on partitions**, and it returns whether it was settled. -/
theorem RoundInv.sets_eq (h : RoundInv owner priority sketches r mergeInstr w) (hnames : Names mergeInstr σ name)
    (hsim : SimInv σ w) (hd : Boruvka.Done w) : sets w.parent = next (blockOutcome sketches r) σ ∧
      (w.modified = true ↔ ¬ Settled (blockOutcome sketches r) σ) := by
  have hgood : w.Good = Chosen (blockOutcome sketches r) σ := funext fun e => propext (h.outcome_iff hnames hd (.good e))
  have hfails : w.Fails ↔ Failed (blockOutcome sketches r) σ := h.outcome_iff hnames hd .fail
  constructor
  · rw [hsim.sets_eq hd, hgood]
    rfl
  · rw [hsim.modified_iff hd, hgood, hfails, Settled, not_and_or, not_not]
    rfl

end round

/-! ## The rounds of a run -/

def Phase.FinalLoad (l : Create.Label n T) : Phase P n T → Prop
  | .create _ c => Create.FinalLoad c l
  | .round .. | .returned .. | .threw .. => True

instance (l : Create.Label n T) : (phase : Phase P n T) → Decidable (phase.FinalLoad l)
  | .create _ c => inferInstanceAs (Decidable (Create.FinalLoad c l))
  | .round .. | .returned .. | .threw .. => inferInstanceAs (Decidable True)

/-- a `find_root` of `create_merge_instructions` that is about to make its last load makes it where the load gives a
root -/
def FinalLoad (s : St P n T) : Label n T → Prop
  | .create l => s.phase.FinalLoad l
  | .thread .. | .join => True

instance (s : St P n T) : (l : Label n T) → Decidable (FinalLoad s l)
  | .create l => inferInstanceAs (Decidable (s.phase.FinalLoad l))
  | .thread .. | .join => inferInstanceAs (Decidable True)

/-- the round that the state is in begins with the partition of its number, and no earlier one was settled -/
def Follows (priority : Fin n → ℕ) (sketches : Fin n → Sketch P) (s : St P n T) : Prop :=
  match s.phase with
  | .round mergeInstr w => (∃ name, Names mergeInstr (partitionAt (blockOutcome sketches) s.roundNum) name) ∧
      SimInv (partitionAt (blockOutcome sketches) s.roundNum) w ∧ ∀ k < s.roundNum, ¬ SettledAt (blockOutcome sketches) k
  | .create w c => sets w.parent = partitionAt (blockOutcome sketches) (s.roundNum + 1) ∧
      Create.RootInv priority w.parent (fun r v => r = root w.parent v) c ∧
      ∀ k < s.roundNum + 1, ¬ SettledAt (blockOutcome sketches) k
  | .returned k w => sets w.parent = partitionAt (blockOutcome sketches) k ∧ SettledAt (blockOutcome sketches) k ∧
      ∀ j < k, ¬ SettledAt (blockOutcome sketches) j
  | .threw .. => ∀ k < P.numSamples, ¬ SettledAt (blockOutcome sketches) k

section run

variable {owner : Fin n → Fin T} {priority : Fin n → ℕ} {sketches : Fin n → Sketch P} {s s' : St P n T}

theorem follows_start : Follows priority sketches (start owner sketches) := by
  refine ⟨⟨id, fun i => rfl, fun v => rfl, fun u v h => h⟩, ?_, fun k hk => absurd hk (Nat.not_lt_zero k)⟩
  have hsets : sets (id : Fin n → Fin n) = ⊥ := by
    ext u v
    rw [sets_iff, Same, root_of_fixed rfl, root_of_fixed rfl]
    rfl
  have hsim := simInv_start sketches id (fun _ => ∅) (roundActs owner 0 (Create.ownInstr n) sketches)
  rwa [hsets] at hsim

/-- the names that `create_merge_instructions` gives -/
theorem names_of_rootInv {parent : Fin n → Fin n} {c : Create.St n T} (h : CreateInv priority c)
    (hroot : Create.RootInv priority parent (fun r v => r = root parent v) c) (hd : Create.Done c) :
    sets c.parent = sets parent ∧ Names c.mergeInstr (sets parent) (root c.parent) := by
  have hsets : sets c.parent = sets parent := by
    ext u v
    rw [sets_iff, sets_iff, Same, Same, hroot.root, hroot.root]
  obtain ⟨m0, -, hinv⟩ := h.sorting
  have hrec := (hinv.grouped (Q := fun r v => r = root parent v) hd hroot.recorded).2
  refine ⟨hsets, fun i => (hrec i).trans (hroot.root _).symm, fun v => ?_, fun u v huv => ?_⟩
  · rw [← hsets]
    exact hroot.ord.same_root v
  · rw [← hsets] at huv
    exact huv

theorem not_settledAt_succ {oracle : ℕ → Finset (Fin n) → Outcome (Fin n)} {r : ℕ} (h : ∀ k < r, ¬ SettledAt oracle k)
    (hr : ¬ SettledAt oracle r) : ∀ k < r + 1, ¬ SettledAt oracle k := by
  intro k hk
  rcases Nat.lt_succ_iff_lt_or_eq.1 hk with hk | rfl
  · exact h k hk
  · exact hr

theorem follows_join (hn0 : 0 < n) (hinv : Inv owner priority sketches s) (h : Follows priority sketches s)
    (hs : join owner s = some s') : Follows priority sketches s' := by
  unfold Inv at hinv
  unfold Follows at h
  rcases join_cases hs with ⟨mergeInstr, w, hphase, hd, hcase⟩ | ⟨w, c, hphase, hd, rfl⟩
  · rw [hphase] at hinv h
    obtain ⟨hr, -, hround⟩ := hinv
    obtain ⟨⟨name, hnames⟩, hsim, hearlier⟩ := h
    obtain ⟨hsets, hmodified⟩ := hround.sets_eq hnames hsim hd
    rcases hcase with ⟨e, he, rfl⟩ | ⟨he, hw, rfl⟩ | ⟨he, hw, rfl⟩
    · have hlast : P.numSamples ≤ s.roundNum := (hround.err_iff hn0 hd).1 (by rw [he]; exact Option.some_ne_none e)
      exact fun k hk => hearlier k (hk.trans_le hlast)
    · exact ⟨hsets, Create.rootInv_start hround.dsu.ord mergeInstr, not_settledAt_succ hearlier (hmodified.1 hw)⟩
    · have hsettled : SettledAt (blockOutcome sketches) s.roundNum := not_not.1 fun hne => by
        rw [hmodified.2 hne] at hw
        cases hw
      exact ⟨hsets.trans hsettled.2, hsettled, hearlier⟩
  · rw [hphase] at hinv h
    obtain ⟨-, -, -, hcreate⟩ := hinv
    obtain ⟨hparent, hroot, hearlier⟩ := h
    obtain ⟨hsets, hnames⟩ := names_of_rootInv hcreate hroot hd
    rw [hparent] at hsets hnames
    refine ⟨⟨root c.parent, hnames⟩, ?_, hearlier⟩
    rw [← hsets]
    exact simInv_start _ _ _ _

theorem follows_step (hn0 : 0 < n) (hinv : Inv owner priority sketches s) (h : Follows priority sketches s) {l : Label n T}
    (hl : FinalLoad s l) (hs : step owner priority s l = some s') : Follows priority sketches s' := by
  cases l with
  | thread t o =>
    simp only [step] at hs
    unfold Inv at hinv
    unfold Follows at h
    split at hs
    next mergeInstr w hphase =>
      rw [hphase] at hinv h
      obtain ⟨w', hw, rfl⟩ := Option.map_eq_some_iff.1 hs
      exact ⟨h.1, h.2.1.step hinv.2.2.dsu hw, h.2.2⟩
    all_goals cases hs
  | create l =>
    simp only [step] at hs
    unfold Follows at h
    split at hs
    next w c hphase =>
      rw [hphase] at h
      obtain ⟨c', hc, rfl⟩ := Option.map_eq_some_iff.1 hs
      obtain ⟨hparent, hroot, hearlier⟩ := h
      simp only [FinalLoad, hphase, Phase.FinalLoad] at hl
      exact ⟨hparent, hroot.step_root hl hc, hearlier⟩
    all_goals cases hs
  | join => exact follows_join hn0 hinv h hs

theorem run_follows (hn : n < 2 ^ 32) (hT : 0 < T) (hTn : T ≤ n) (hidx : ∀ v, (sketches v).sampleIdx = 0) {ls : List (Label n T)}
    (hl : Meets (step owner priority) FinalLoad (start owner sketches) ls)
    (hs : exec (step owner priority) (start owner sketches) ls = some s) :
    Inv owner priority sketches s ∧ Follows priority sketches s := by
  have hn0 : 0 < n := hT.trans_le hTn
  refine exec_invariant_of_meets (I := fun s => Inv owner priority sketches s ∧ Follows priority sketches s) _
    (fun s l s' h hl hs => ?_) ⟨inv_start hn hT hTn hidx, follows_start⟩ hl hs
  exact ⟨inv_step hn hn0 hT hTn h.1 hs, follows_step hn0 h.1 h.2 hl hs⟩

/-- what a call that is over has come to -/
theorem ended_cases (h : Follows priority sketches s) (hend : s.phase.Ended) :
    (∃ e w, s.phase = .threw e w ∧ ∀ k < P.numSamples, ¬ SettledAt (blockOutcome sketches) k) ∨
      ∃ k w, s.phase = .returned k w ∧ sets w.parent = partitionAt (blockOutcome sketches) k ∧
        SettledAt (blockOutcome sketches) k ∧ ∀ j < k, ¬ SettledAt (blockOutcome sketches) j := by
  unfold Follows at h
  cases hphase : s.phase with
  | round | create =>
    rw [hphase] at hend
    exact hend.elim
  | returned k w =>
    rw [hphase] at h
    exact .inr ⟨k, w, rfl, h⟩
  | threw e w =>
    rw [hphase] at h
    exact .inl ⟨e, w, rfl, h⟩

end run

/-- two calls that are over have had the same trajectory -/
theorem ended_agree {T' : ℕ} {sketches : Fin n → Sketch P} {owner : Fin n → Fin T} {owner' : Fin n → Fin T'}
    {priority priority' : Fin n → ℕ} {s : St P n T} {s' : St P n T'} (hinv : Inv owner priority sketches s)
    (hinv' : Inv owner' priority' sketches s') (hf : Follows priority sketches s) (hf' : Follows priority' sketches s')
    (hend : s.phase.Ended) (hend' : s'.phase.Ended) :
    (∃ e w e' w', s.phase = .threw e w ∧ s'.phase = .threw e' w') ∨
      ∃ k w w', s.phase = .returned k w ∧ s'.phase = .returned k w' ∧ ∀ u v, Same w.parent u v ↔ Same w'.parent u v := by
  rcases ended_cases hf hend with ⟨e, w, hphase, hno⟩ | ⟨k, w, hphase, hsets, hsettled, hfirst⟩ <;>
    rcases ended_cases hf' hend' with ⟨e', w', hphase', hno'⟩ | ⟨k', w', hphase', hsets', hsettled', hfirst'⟩
  · exact .inl ⟨e, w, e', w', hphase, hphase'⟩
  · rw [Inv, hphase'] at hinv'
    exact absurd hsettled' (hno k' hinv'.2.1)
  · rw [Inv, hphase] at hinv
    exact absurd hsettled (hno' k hinv.2.1)
  · rcases lt_trichotomy k k' with hlt | rfl | hlt
    · exact absurd hsettled (hfirst' k hlt)
    · refine .inr ⟨k, w, w', hphase, hphase', fun u v => ?_⟩
      rw [← sets_iff, ← sets_iff, hsets, hsets']
    · exact absurd hsettled' (hfirst k' hlt)

/-- **The result does not depend on the schedule.** Two calls of `boruvka_emulation` with the same sketches, whatever
their schedules, team sizes and priorities, either both throw or both return, with the same partition and the same
number of rounds, if in both every `find_root` of `create_merge_instructions` makes its last load where that load gives
a root. Until a call is over, some step can be made, if the good samples name two vertices; and it goes on for ever only
if compare-exchanges fail spuriously again and again. -/
theorem schedule_independent {T' : ℕ} {sketches : Fin n → Sketch P} {owner : Fin n → Fin T} {owner' : Fin n → Fin T'}
    {priority priority' : Fin n → ℕ} {ls : List (Label n T)} {ls' : List (Label n T')} {s : St P n T} {s' : St P n T'}
    (hn : n < 2 ^ 32) (hT : 0 < T) (hTn : T ≤ n) (hT' : 0 < T') (hTn' : T' ≤ n) (hidx : ∀ v, (sketches v).sampleIdx = 0)
    (hl : Meets (step owner priority) FinalLoad (start owner sketches) ls)
    (hl' : Meets (step owner' priority') FinalLoad (start owner' sketches) ls')
    (hs : exec (step owner priority) (start owner sketches) ls = some s)
    (hs' : exec (step owner' priority') (start owner' sketches) ls' = some s') :
    (s.phase.Ended → s'.phase.Ended →
      (∃ e w e' w', s.phase = .threw e w ∧ s'.phase = .threw e' w') ∨
      ∃ k w w', s.phase = .returned k w ∧ s'.phase = .returned k w' ∧ ∀ u v, Same w.parent u v ↔ Same w'.parent u v) ∧
    (¬ s.phase.Ended → (∀ skt, s.phase.About skt → Decodes n skt) → ∃ l s₁, step owner priority s l = some s₁) ∧
    ∀ states ks, Endless (step owner priority) states ks → states 0 = start owner sketches →
      ∀ k, ∃ j, k ≤ j ∧ Spurious (states j) (ks j) := by
  obtain ⟨hinv, hf⟩ := run_follows hn hT hTn hidx hl hs
  obtain ⟨hinv', hf'⟩ := run_follows hn hT' hTn' hidx hl' hs'
  exact ⟨ended_agree hinv hinv' hf hf', hinv.enabled, fun states ks => again_and_again_spurious hn hT hTn hidx⟩

/-! ## Runs on fixed sketches -/

/-- the call has returned after this many rounds, and leaves this -/
def Phase.Returned (lastQueryRounds : ℕ) (Q : Boruvka.St P n T → Prop) : Phase P n T → Prop
  | .returned k w => k = lastQueryRounds ∧ Q w
  | .round .. | .create .. | .threw .. => False

instance (k : ℕ) (Q : Boruvka.St P n T → Prop) [DecidablePred Q] : (phase : Phase P n T) → Decidable (phase.Returned k Q)
  | .returned k' w => inferInstanceAs (Decidable (k' = k ∧ Q w))
  | .round .. | .create .. | .threw .. => inferInstanceAs (Decidable False)

theorem Phase.Returned.state {k : ℕ} {Q : Boruvka.St P n T → Prop} {phase : Phase P n T} (h : phase.Returned k Q) :
    ∃ w, phase = .returned k w ∧ Q w := by
  cases phase with
  | returned k' w =>
    obtain ⟨rfl, hw⟩ := h
    exact ⟨w, rfl, hw⟩
  | round | create | threw => exact h.elim

/-- steps of one thread in a round -/
def inRound (t : Fin T) (k : ℕ) : List (Label n T) := List.replicate k (.thread t .left)

/-- steps of one thread in `create_merge_instructions` -/
def inCreate (t : Fin T) (k : ℕ) : List (Label n T) := List.replicate k (.create (.thread t .left))

/-- the thread begins to iterate over its map -/
def iterate (t : Fin T) (localCcs : List (Fin n × List (Fin n))) : List (Label n T) := [.create (.iterate t localCcs)]

def barriers (k : ℕ) : List (Label n T) := List.replicate k (.create .barrier)

/-- two vertices with an edge -/
def pair : Params := ⟨fun x _ => x ||| 1#64 <<< 63, 0, 2, 1, 1, false⟩

def pairStream : List (Fin 2 × Fin 2) := [(Threads.fst, Threads.snd)]

def pairSketch (v : Fin 2) : Sketch pair := ⟨0, pairSum pair v (copies pairStream)⟩

def pairPriority (v : Fin 2) : ℕ := v.val

def pairAlone : List (Label 2 1) := List.flatten [
  inRound (Threads.nth 0) 23, [.join], inCreate (Threads.nth 0) 10,
  iterate (Threads.nth 0) [(Threads.snd, [Threads.fst, Threads.snd])], inCreate (Threads.nth 0) 1, barriers 1,
  inCreate (Threads.nth 0) 1, barriers 3, inCreate (Threads.nth 0) 2, [.join], inRound (Threads.nth 0) 1, [.join]]

/-- a thread for each vertex -/
def pairTeam : List (Label 2 2) := List.flatten [
  inRound Threads.fst 13, inRound Threads.snd 10, [.join], inCreate Threads.fst 5, inCreate Threads.snd 5,
  iterate Threads.fst [(Threads.snd, [Threads.fst])], iterate Threads.snd [(Threads.snd, [Threads.snd])],
  inCreate Threads.fst 1, inCreate Threads.snd 1, barriers 3, inCreate Threads.snd 1, barriers 1,
  inCreate Threads.fst 1, inCreate Threads.snd 1, [.join], inRound Threads.fst 2, inRound Threads.snd 2, [.join]]

def pairAloneStart : St pair 2 1 := start (fun _ => Threads.nth 0) pairSketch

def pairTeamStart : St pair 2 2 := start id pairSketch

theorem pairAlone_returned : ∃ s ∈ exec (step (fun _ => Threads.nth 0) pairPriority) pairAloneStart pairAlone,
    s.phase.Returned 1 fun _ => True := by decide +kernel

theorem pairTeam_returned : ∃ s ∈ exec (step id pairPriority) pairTeamStart pairTeam, s.phase.Returned 1 fun _ => True := by
  decide +kernel

theorem pairAlone_finalLoad : Meets (step (fun _ => Threads.nth 0) pairPriority) FinalLoad pairAloneStart pairAlone := by
  decide +kernel

theorem pairTeam_finalLoad : Meets (step id pairPriority) FinalLoad pairTeamStart pairTeam := by decide +kernel

theorem schedule_independent_pair : ∃ s s' k w w',
    exec (step (fun _ => Threads.nth 0) pairPriority) pairAloneStart pairAlone = some s ∧
    exec (step id pairPriority) pairTeamStart pairTeam = some s' ∧
    s.phase = .returned k w ∧ s'.phase = .returned k w' ∧ ∀ u v, Same w.parent u v ↔ Same w'.parent u v := by
  obtain ⟨s, hs, hret⟩ := pairAlone_returned
  obtain ⟨s', hs', hret'⟩ := pairTeam_returned
  obtain ⟨w, hphase, -⟩ := hret.state
  obtain ⟨w', hphase', -⟩ := hret'.state
  have h := (schedule_independent (by norm_num) (by norm_num) (by norm_num) (by norm_num) le_rfl (fun _ => rfl)
    pairAlone_finalLoad pairTeam_finalLoad hs hs').1 (by rw [hphase]; trivial) (by rw [hphase']; trivial)
  rcases h with ⟨e, w, e', w', hthrew, -⟩ | ⟨k, w, w', hk, hk', hsame⟩
  · rw [hphase] at hthrew
    cases hthrew
  · exact ⟨s, s', k, w, w', hs, hs', hk, hk', hsame⟩

/-! ## A race -/

/-- the path 6 - 8 - 0 - 2 - 4 - 10 - 11 - 5 - 3 - 1 - 9 - 7; the later an edge in this list, the deeper it lies in
every column -/
def racingEdges : List (Fin 12 × Fin 12) := List.flatten [
  [(Threads.nth 4, Threads.nth 10), (Threads.nth 5, Threads.nth 11), (Threads.nth 2, Threads.nth 4)],
  [(Threads.nth 3, Threads.nth 5), (Threads.nth 0, Threads.nth 2), (Threads.nth 1, Threads.nth 3)],
  [(Threads.nth 0, Threads.nth 8), (Threads.nth 1, Threads.nth 9), (Threads.nth 6, Threads.nth 8)],
  [(Threads.nth 7, Threads.nth 9), (Threads.nth 10, Threads.nth 11)]]

def racingIds : List (BitVec 64) := racingEdges.map fun e => edgeIdx e.1 e.2

/-- the sizes of `calc_cc_samples` and `calc_bkt_per_col` for 12 vertices; a hash of its own for every edge -/
def racing : Params :=
  ⟨fun x _ => 1#64 <<< (racingIds.idxOf x / 2) ||| 1#64 <<< (8 + racingIds.idxOf x), 0, 18, 1, 8, false⟩

def racingSketch (v : Fin 12) : Sketch racing := ⟨0, pairSum racing v (copies racingEdges)⟩

/-- the priorities ascend from both ends of the path to its middle -/
def racingPriority : Fin 12 → ℕ := ![2, 2, 3, 3, 4, 4, 0, 0, 1, 1, 5, 5]

/-- two threads, with half of the vertices each -/
def halfOwner (v : Fin 12) : Fin 2 := if v.val < 6 then Threads.fst else Threads.snd

/-- round 0, and the instructions for round 1 -/
def racingFirst : List (Label 12 2) := List.flatten [
  -- the sets are the chains 6 → 8 → 0 → 2 → 4 → 10 and 7 → 9 → 1 → 3 → 5 → 11
  inRound Threads.snd 52, inRound Threads.fst 78, inRound Threads.snd 20, [.join],
  -- thread 0 is in `find_root(0)` while thread 1 passes 0 on its way from 6; then the same with 1 and 7
  inCreate Threads.fst 3, inCreate Threads.snd 14, inCreate Threads.fst 5, inCreate Threads.snd 19,
  inCreate Threads.fst 36, inCreate Threads.snd 39,
  iterate Threads.fst [(Threads.nth 4, [Threads.nth 0]), (Threads.nth 5, [Threads.nth 1]),
    (Threads.nth 10, [Threads.nth 2, Threads.nth 4]), (Threads.nth 11, [Threads.nth 3, Threads.nth 5])],
  iterate Threads.snd [(Threads.nth 10, [Threads.nth 6, Threads.nth 8, Threads.nth 10]),
    (Threads.nth 11, [Threads.nth 7, Threads.nth 9, Threads.nth 11])],
  inCreate Threads.fst 4, inCreate Threads.snd 2, barriers 1, inCreate Threads.fst 5, inCreate Threads.snd 5, barriers 2,
  inCreate Threads.snd 6, barriers 1, inCreate Threads.fst 6, inCreate Threads.snd 6, [.join]]

/-- round 1, with the supernodes {0}, {1} and what is left of the two sets -/
def racingSecond : List (Label 12 2) := List.flatten [inRound Threads.fst 36, inRound Threads.snd 21, [.join]]

/-- one thread, rounds 0, 1 and 2 -/
def racingAlone : List (Label 12 1) := List.flatten [
  inRound (Threads.nth 0) 164, [.join], inCreate (Threads.nth 0) 102,
  iterate (Threads.nth 0) [(Threads.nth 10, (List.range 6).map fun i => Threads.nth (2 * i)),
    (Threads.nth 11, (List.range 6).map fun i => Threads.nth (2 * i + 1))],
  inCreate (Threads.nth 0) 2, barriers 1, inCreate (Threads.nth 0) 11, barriers 3, inCreate (Threads.nth 0) 12, [.join],
  inRound (Threads.nth 0) 23, [.join], inCreate (Threads.nth 0) 95,
  iterate (Threads.nth 0) [(Threads.nth 10, ((List.range 6).map fun i => Threads.nth (2 * i)) ++
    (List.range 6).map fun i => Threads.nth (2 * i + 1))],
  inCreate (Threads.nth 0) 1, barriers 1, inCreate (Threads.nth 0) 11, barriers 3, inCreate (Threads.nth 0) 12, [.join],
  inRound (Threads.nth 0) 1, [.join]]

/-- at the begin of a round, before any sample -/
def Phase.Begins (Q : Boruvka.St P n T → Prop) : Phase P n T → Prop
  | .round _ w => w.sampled.length = 0 ∧ Q w
  | .create .. | .returned .. | .threw .. => False

instance (Q : Boruvka.St P n T → Prop) [DecidablePred Q] : (phase : Phase P n T) → Decidable (phase.Begins Q)
  | .round _ w => inferInstanceAs (Decidable (w.sampled.length = 0 ∧ Q w))
  | .create .. | .returned .. | .threw .. => inferInstanceAs (Decidable False)

theorem Phase.Begins.state {Q : Boruvka.St P n T → Prop} {phase : Phase P n T} (h : phase.Begins Q) :
    ∃ mergeInstr w, phase = .round mergeInstr w ∧ w.sampled = [] ∧ Q w := by
  cases phase with
  | round mergeInstr w => exact ⟨mergeInstr, w, rfl, List.length_eq_zero_iff.1 h.1, h.2⟩
  | create | returned | threw => exact h.elim

/-- the even and the odd vertices are the two sets -/
def TwoSets (w : Boruvka.St P 12 T) : Prop := ∀ v, (root w.parent v).val = 10 + v.val % 2

instance (w : Boruvka.St P 12 T) : Decidable (TwoSets w) :=
  inferInstanceAs (Decidable (∀ v, (root w.parent v).val = 10 + v.val % 2))

/-- round 1 changes nothing, and the call returns -/
theorem racing_returned : ∃ s₁ ∈ exec (step halfOwner racingPriority) (start halfOwner racingSketch) racingFirst,
    s₁.roundNum = 1 ∧ s₁.phase.Begins TwoSets ∧
      ∃ s₂ ∈ exec (step halfOwner racingPriority) s₁ racingSecond, s₂.roundNum = 1 ∧ s₂.phase.Returned 1 TwoSets := by
  decide +kernel

theorem racingAlone_returned : ∃ s ∈ exec (step (fun _ => Threads.nth 0) racingPriority)
    (start (fun _ => (Threads.nth 0 : Fin 1)) racingSketch) racingAlone,
      s.phase.Returned 2 fun w => ∀ v, (root w.parent v).val = 10 := by
  decide +kernel

/-- **A schedule that changes the result.** With one thread all vertices are in one set after round 2; two threads with
the same sketches return two sets after round 1. -/
theorem schedule_dependent : ∃ s s' w w',
    exec (step halfOwner racingPriority) (start halfOwner racingSketch) (racingFirst ++ racingSecond) = some s ∧
    exec (step (fun _ => Threads.nth 0) racingPriority) (start (fun _ => (Threads.nth 0 : Fin 1)) racingSketch) racingAlone =
      some s' ∧
    s.phase = .returned 1 w ∧ s'.phase = .returned 2 w' ∧
    ¬ Same w.parent (Threads.nth 10) (Threads.nth 11) ∧ Same w'.parent (Threads.nth 10) (Threads.nth 11) := by
  obtain ⟨s₁, hs₁, -, -, s, hs, -, hret⟩ := racing_returned
  obtain ⟨s', hs', hret'⟩ := racingAlone_returned
  obtain ⟨w, hphase, htwo⟩ := hret.state
  obtain ⟨w', hphase', hone⟩ := hret'.state
  refine ⟨s, s', w, w', (exec_append _ _ hs₁).trans hs, hs', hphase, hphase', fun hsame => ?_, Fin.ext ?_⟩
  · have h10 := htwo (Threads.nth 10)
    have h11 := htwo (Threads.nth 11)
    rw [show root w.parent (Threads.nth 10) = root w.parent (Threads.nth 11) from hsame] at h10
    exact absurd (h10.symm.trans h11) (by decide)
  · rw [hone, hone]

end GraphStreamingCC.Boruvka.Emulation
