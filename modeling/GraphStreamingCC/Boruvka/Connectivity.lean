/-
What `boruvka_emulation` finds when the vertex sketches hold a graph (src/cc_sketch_alg.cpp, src/sketch.cpp).

The sketches of a block add up to the sketch of its cut. If no cut has a false checksum, the sample of a block is an
edge that leaves it, or ZERO if none does, or FAIL: the oracle of `Boruvka.Trajectory` fits the graph. So
- a call that returns has found the components, and `spanning_forest` is a spanning forest (`components_exact`);
- without failures the number of components with edges that leave them halves in every round, and the call returns after
  at most `log 2 n` rounds (`halves`).

Both hold as long as the supernodes are the sets of the union-find. A call whose supernodes are parts of sets can sample
edges within the sets only and return too early (`split_supernodes`).
-/
import GraphStreamingCC.Boruvka.Trajectory
import GraphStreamingCC.Ingest.Incidence

namespace GraphStreamingCC.Boruvka.Emulation

open Dsu Ingest ParentForest Parity Rounds Runs SpanningForest

variable {P : Params} {n T : ℕ} {G : SimpleGraph (Fin n)} [DecidableRel G.Adj] {r : ℕ}

/-! ## The samples of a graph -/

theorem decodeEdge_edgeIdx (hn : n ≤ 2 ^ 32) (u v : Fin n) : decodeEdge n (edgeIdx u v) = some (min u v, max u v) := by
  have hsorted : ∀ {a b : Fin n}, a ≤ b → decodeEdge n (edgeIdx a b) = some (a, b) := by
    intro a b hab
    have ha : (BitVec.ofNat 32 a.val).toNat = a := by rw [BitVec.toNat_ofNat, Nat.mod_eq_of_lt (by omega)]
    have hb : (BitVec.ofNat 32 b.val).toNat = b := by rw [BitVec.toNat_ofNat, Nat.mod_eq_of_lt (by omega)]
    simp only [decodeEdge, inv_edgeIdx hn hab, ha, hb, a.isLt, b.isLt, and_self, dite_true]
  rcases le_total u v with huv | huv
  · rw [min_eq_left huv, max_eq_right huv, hsorted huv]
  · rw [min_eq_right huv, max_eq_left huv, edgeIdx_comm, hsorted huv]

section sample

variable {B : Finset (Fin n)} {skt : Sketch P}

/-- **The sample of a block**: ZERO if no edge leaves it, an edge that leaves it, or FAIL -/
theorem sampleAt_cut (hr : r < P.numSamples) (hc : Sketch.NoFalseSample P (cutIds G B) r)
    (h : ∀ b, Sketch.InWindow P r b → skt.buckets b = Sketch.encode P (cutIds G B) b) :
    skt.sampleAt r = ⟨0, .zero⟩ ∧ ¬ Leaves G B ∨
      (∃ u ∈ B, ∃ w, w ∉ B ∧ G.Adj u w ∧ skt.sampleAt r = ⟨edgeIdx u w, .good⟩) ∨ skt.sampleAt r = ⟨0, .fail⟩ := by
  have hwindow : skt.sampleAt r = (⟨r, Sketch.encode P (cutIds G B)⟩ : Sketch P).sampleAt r := Sketch.sampleAt_window hr h
  rw [hwindow]
  rcases Sketch.sampleAt_cases (s := ⟨r, Sketch.encode P (cutIds G B)⟩) (Sketch.encodes_encode _) hc hr with
    ⟨hempty, hs⟩ | ⟨-, -, x, hx, hs⟩ | ⟨-, -, hs⟩
  · refine .inl ⟨hs, ?_⟩
    rintro ⟨u, hu, w, hw, hadj⟩
    have hmem : edgeIdx u w ∈ cutIds G B := mem_cutIds.2 ⟨u, hu, w, hw, hadj, rfl⟩
    rw [hempty] at hmem
    cases hmem
  · obtain ⟨u, hu, w, hw, hadj, rfl⟩ := mem_cutIds.1 hx
    exact .inr (.inl ⟨u, hu, w, hw, hadj, hs⟩)
  · exact .inr (.inr hs)

theorem outcome_fits (hn : n ≤ 2 ^ 32) (hr : r < P.numSamples) (hidx : skt.sampleIdx = r)
    (hc : Sketch.NoFalseSample P (cutIds G B) r)
    (h : ∀ b, Sketch.InWindow P r b → skt.buckets b = Sketch.encode P (cutIds G B) b) : (outcome n skt).Fits G B := by
  have hsample : skt.sample = .ok ({ skt with sampleIdx := skt.sampleIdx + 1 }, skt.sampleAt r) := by
    rw [Sketch.sample, if_neg (by omega), hidx]
  unfold outcome
  rw [hsample]
  rcases sampleAt_cut hr hc h with ⟨hs, hnone⟩ | ⟨u, hu, w, hw, hadj, hs⟩ | hs <;> simp only [hs]
  · exact hnone
  · rw [decodeEdge_edgeIdx hn]
    rcases le_total u w with huw | huw
    · simp only [min_eq_left huw, max_eq_right huw]
      exact ⟨hadj, iff_of_true hu hw⟩
    · simp only [min_eq_right huw, max_eq_left huw]
      exact ⟨hadj.symm, iff_of_false hw (not_not.2 hu)⟩
  · trivial

theorem decodes_cut (hn : n ≤ 2 ^ 32) (hidx : skt.sampleIdx = min r P.numSamples) (hc : Sketch.NoFalseSample P (cutIds G B) r)
    (h : r < P.numSamples → ∀ b, Sketch.InWindow P r b → skt.buckets b = Sketch.encode P (cutIds G B) b) : Decodes n skt := by
  intro skt' smp hsample hgood
  unfold Sketch.sample at hsample
  split_ifs at hsample with hlast
  have hr : r < P.numSamples := by omega
  cases hsample
  rw [hidx, min_eq_left hr.le] at hgood ⊢
  rcases sampleAt_cut hr hc (h hr) with ⟨hs, -⟩ | ⟨u, hu, w, hw, hadj, hs⟩ | hs <;> rw [hs] at hgood ⊢
  · cases hgood
  · rw [decodeEdge_edgeIdx hn]
    rfl
  · cases hgood

end sample

/-- the vertices of a supernode -/
def members (mergeInstr : Fin n → MergeInstr n) (ρ : Fin n) : Finset (Fin n) :=
  (Finset.univ.filter fun i => (mergeInstr i).root = ρ).image fun i => (mergeInstr i).child

variable {mergeInstr : Fin n → MergeInstr n} {σ : Setoid (Fin n)} {name : Fin n → Fin n} {sketches : Fin n → Sketch P}

theorem Names.members_eq (h : Names mergeInstr σ name) (hg : Grouped mergeInstr) (v : Fin n) :
    members mergeInstr (name v) = block σ v := by
  ext u
  obtain ⟨i, rfl⟩ := hg.children.2 u
  rw [mem_block, ← h.eq_iff, ← h.root]
  simp only [members, Finset.mem_image, Finset.mem_filter, Finset.mem_univ, true_and]
  constructor
  · intro hj
    obtain ⟨j, hj, hji⟩ := hj
    rwa [hg.children.1 hji] at hj
  · intro hi
    exact ⟨i, hi, rfl⟩

/-- the hash gives no false checksum on the index sets that occur in the round: those of the edges that leave a
supernode -/
def St.NoFalse (G : SimpleGraph (Fin n)) [DecidableRel G.Adj] (s : St P n T) : Prop :=
  match s.phase with
  | .round mergeInstr _ =>
    ∀ i, Sketch.NoFalseSample P (cutIds G (members mergeInstr (mergeInstr i).root)) s.roundNum
  | .create .. | .returned .. | .threw .. => True

theorem noFalse_block (hnames : Names mergeInstr σ name) (hg : Grouped mergeInstr)
    (hc : ∀ i, Sketch.NoFalseSample P (cutIds G (members mergeInstr (mergeInstr i).root)) r) (v : Fin n) :
    Sketch.NoFalseSample P (cutIds G (block σ v)) r := by
  obtain ⟨i, hi⟩ := hg.children.2 v
  have h := hc i
  simp only at hi
  rwa [hnames.root, hi, hnames.members_eq hg] at h

theorem blockOutcome_fits (hn : n ≤ 2 ^ 32) (hr : r < P.numSamples) (hb : ∀ v, (sketches v).buckets = graphSketch P G v)
    {B : Finset (Fin n)} (hc : Sketch.NoFalseSample P (cutIds G B) r) : (blockOutcome sketches r B).Fits G B := by
  refine outcome_fits hn hr (min_eq_left hr.le) hc fun b _ => ?_
  simp only [hb]
  rw [sum_graphSketch hn]

/-! ## Runs over the sketches of a graph -/

/-- the rounds that are over -/
def St.completed (s : St P n T) : ℕ :=
  match s.phase with
  | .round .. | .threw .. => s.roundNum
  | .create .. | .returned .. => s.roundNum + 1

/-- no sample of the round so far has failed -/
def Phase.NoFail : Phase P n T → Prop
  | .round _ w => ∀ x ∈ w.sampled, outcome n x.2 ≠ .fail
  | .create .. | .returned .. | .threw .. => True

instance : (phase : Phase P n T) → Decidable phase.NoFail
  | .round _ w => inferInstanceAs (Decidable (∀ x ∈ w.sampled, outcome n x.2 ≠ .fail))
  | .create .. | .returned .. | .threw .. => inferInstanceAs (Decidable True)

/-- the forest behind a round: a spanning forest of the sets, of edges of G -/
structure Forested (G : SimpleGraph (Fin n)) (priority : Fin n → ℕ) (w : Boruvka.St P n T) : Prop where
  ord : Ordered (Dsu.rank priority) w.parent
  spans : Spans w.parent (setGraph w.spanningForest)
  below : ∀ u, ∀ v ∈ w.spanningForest u, u < v
  le : setGraph w.spanningForest ≤ G

/-- the forest, in every phase -/
def Phase.ForestInv (G : SimpleGraph (Fin n)) (priority : Fin n → ℕ) : Phase P n T → Prop
  | .round _ w => Boruvka.ForestInv G w
  | .create w _ | .returned _ w => Forested G priority w
  | .threw .. => True

section run

variable {owner : Fin n → Fin T} {priority : Fin n → ℕ} {s s' : St P n T}

omit [DecidableRel G.Adj] in
theorem forested_of_done {w : Boruvka.St P n T} (h : Boruvka.ForestInv G w) (hdsu : DsuInv priority w) (hd : Boruvka.Done w)
    (hgood : ∀ e, w.Good e → G.Adj e.1 e.2) : Forested G priority w := by
  have hgraph : w.forestGraph = setGraph w.spanningForest := forestGraph_of_not_at fun e => hd.not_at fun hc => by cases hc
  refine ⟨hdsu.ord, hgraph ▸ h.spans, h.below, fun {u v} huv => ?_⟩
  rcases h.edges u v (hgraph ▸ huv) with hadj | hadj | hadj
  · exact hadj
  · exact hgood _ hadj
  · exact (hgood _ hadj).symm

/-- a step either stays in the round or ends it; a round that ends without an exception has a number below
`num_samples` -/
theorem completed_cases (hn0 : 0 < n) (hinv : Inv owner priority sketches s) {l : Label n T}
    (hs : step owner priority s l = some s') : s'.completed = s.completed ∨
      ∃ mergeInstr w, s.phase = .round mergeInstr w ∧ Boruvka.Done w ∧ s.roundNum < P.numSamples ∧
        s'.completed = s.roundNum + 1 ∧ s.completed = s.roundNum := by
  cases l with
  | thread t o =>
    simp only [step] at hs
    split at hs
    next mergeInstr w hphase =>
      obtain ⟨w', -, rfl⟩ := Option.map_eq_some_iff.1 hs
      exact .inl (by simp only [St.completed, hphase])
    all_goals cases hs
  | create l =>
    simp only [step] at hs
    split at hs
    next w c hphase =>
      obtain ⟨c', -, rfl⟩ := Option.map_eq_some_iff.1 hs
      exact .inl (by simp only [St.completed, hphase])
    all_goals cases hs
  | join =>
    unfold Inv at hinv
    rcases join_cases hs with ⟨mergeInstr, w, hphase, hd, hcase⟩ | ⟨w, c, hphase, hd, rfl⟩
    · rw [hphase] at hinv
      have herr := hinv.2.2.err_iff hn0 hd
      rcases hcase with ⟨e, he, rfl⟩ | ⟨he, hw, rfl⟩ | ⟨he, hw, rfl⟩
      · exact .inl (by simp only [St.completed, hphase])
      all_goals
        have hr : s.roundNum < P.numSamples := not_le.1 fun hle => herr.2 hle he
        exact .inr ⟨mergeInstr, w, hphase, hd, hr, rfl, by simp only [St.completed, hphase]⟩
    · exact .inl (by simp only [St.completed, hphase, performBoruvkaRound])

/-- what the samples of the rounds so far have said is right -/
theorem fits_step (hn : n ≤ 2 ^ 32) (hn0 : 0 < n) (hb : ∀ v, (sketches v).buckets = graphSketch P G v)
    (hinv : Inv owner priority sketches s) (hf : Follows priority sketches s)
    (h : ∀ k < s.completed, FitsAt G (blockOutcome sketches) k) (hc : s.NoFalse G) {l : Label n T}
    (hs : step owner priority s l = some s') : ∀ k < s'.completed, FitsAt G (blockOutcome sketches) k := by
  rcases completed_cases hn0 hinv hs with heq | ⟨mergeInstr, w, hphase, hd, hr, heq, hold⟩
  · rwa [heq]
  · intro k hk
    rw [heq] at hk
    rcases Nat.lt_succ_iff_lt_or_eq.1 hk with hk | rfl
    · exact h k (hold ▸ hk)
    · unfold Inv at hinv
      unfold Follows at hf
      unfold St.NoFalse at hc
      rw [hphase] at hinv hf hc
      obtain ⟨⟨name, hnames⟩, -⟩ := hf
      exact fun v => blockOutcome_fits hn hr hb (noFalse_block hnames hinv.2.2.grouped hc v)

/-- no sample of the rounds so far has failed -/
theorem unfailing_step (hn0 : 0 < n) (hinv : Inv owner priority sketches s) (hf : Follows priority sketches s)
    (h : ∀ k < s.completed, ¬ Failed (blockOutcome sketches k) (partitionAt (blockOutcome sketches) k)) (hc : s.phase.NoFail)
    {l : Label n T} (hs : step owner priority s l = some s') :
    ∀ k < s'.completed, ¬ Failed (blockOutcome sketches k) (partitionAt (blockOutcome sketches) k) := by
  rcases completed_cases hn0 hinv hs with heq | ⟨mergeInstr, w, hphase, hd, -, heq, hold⟩
  · rwa [heq]
  · intro k hk
    rw [heq] at hk
    rcases Nat.lt_succ_iff_lt_or_eq.1 hk with hk | rfl
    · exact h k (hold ▸ hk)
    · unfold Inv at hinv
      unfold Follows at hf
      rw [hphase] at hinv hf hc
      obtain ⟨⟨name, hnames⟩, -⟩ := hf
      intro hfail
      obtain ⟨x, hx, he⟩ := (hinv.2.2.outcome_iff hnames hd .fail).2 hfail
      exact hc x hx he

omit [DecidableRel G.Adj] in
/-- the forest between any two steps, if the samples of the round that a step ends have been right -/
theorem forestInv_step (hinv : Inv owner priority sketches s) (hf : Follows priority sketches s)
    (h : s.phase.ForestInv G priority) {l : Label n T} (hs : step owner priority s l = some s')
    (hfits : ∀ k < s'.completed, FitsAt G (blockOutcome sketches) k) : s'.phase.ForestInv G priority := by
  unfold Inv at hinv
  unfold Follows at hf
  cases l with
  | thread t o =>
    simp only [step] at hs
    split at hs
    next mergeInstr w hphase =>
      rw [hphase] at hinv hf h
      obtain ⟨w', hw, rfl⟩ := Option.map_eq_some_iff.1 hs
      exact Boruvka.ForestInv.step hinv.2.2.dsu hf.2.1 h hw
    all_goals cases hs
  | create l =>
    simp only [step] at hs
    split at hs
    next w c hphase =>
      rw [hphase] at h
      obtain ⟨c', -, rfl⟩ := Option.map_eq_some_iff.1 hs
      exact h
    all_goals cases hs
  | join =>
    rcases join_cases hs with ⟨mergeInstr, w, hphase, hd, hcase⟩ | ⟨w, c, hphase, hd, rfl⟩
    · rw [hphase] at hinv hf h
      obtain ⟨⟨name, hnames⟩, -⟩ := hf
      have hforested : s.roundNum < s'.completed → Forested G priority w := by
        refine fun hr => forested_of_done h hinv.2.2.dsu hd fun e he => ?_
        obtain ⟨v, hv⟩ := (hinv.2.2.outcome_iff hnames hd (.good e)).1 he
        have hfit := hfits _ hr v
        rw [hv] at hfit
        exact hfit.1
      rcases hcase with ⟨e, he, rfl⟩ | ⟨he, hw, rfl⟩ | ⟨he, hw, rfl⟩
      · trivial
      · exact hforested (Nat.lt_succ_self _)
      · exact hforested (Nat.lt_succ_self _)
    · rw [hphase] at hf h
      obtain ⟨-, hroot, -⟩ := hf
      exact forestInv_start (h.spans.of_root_eq h.ord hroot.ord hroot.root) h.below h.le _ _

theorem run_fits (hn : n < 2 ^ 32) (hT : 0 < T) (hTn : T ≤ n) (hidx : ∀ v, (sketches v).sampleIdx = 0)
    (hb : ∀ v, (sketches v).buckets = graphSketch P G v) {ls : List (Label n T)}
    (hl : Meets (step owner priority) FinalLoad (start owner sketches) ls)
    (hc : Meets (step owner priority) (fun s _ => s.NoFalse G) (start owner sketches) ls)
    (hs : exec (step owner priority) (start owner sketches) ls = some s) :
    (∀ k < s.completed, FitsAt G (blockOutcome sketches) k) ∧ s.phase.ForestInv G priority := by
  have hn0 : 0 < n := hT.trans_le hTn
  have h : (Inv owner priority sketches s ∧ Follows priority sketches s) ∧
      (∀ k < s.completed, FitsAt G (blockOutcome sketches) k) ∧ s.phase.ForestInv G priority := by
    refine exec_invariant_of_meets (I := fun s => (Inv owner priority sketches s ∧ Follows priority sketches s) ∧
      (∀ k < s.completed, FitsAt G (blockOutcome sketches) k) ∧ s.phase.ForestInv G priority) _
      (fun s l s' h hl hs => ?_) ⟨⟨inv_start hn hT hTn hidx, follows_start⟩, fun k hk => absurd hk (Nat.not_lt_zero k), ?_⟩
      (meets_and _ hl hc) hs
    · obtain ⟨⟨hinv, hf⟩, hfits, hforest⟩ := h
      have hfits' := fits_step hn.le hn0 hb hinv hf hfits hl.2 hs
      exact ⟨⟨inv_step hn hn0 hT hTn hinv hs, follows_step hn0 hinv hf hl.1 hs⟩, hfits', forestInv_step hinv hf hforest hs hfits'⟩
    · have hempty : setGraph (fun _ : Fin n => (∅ : Finset (Fin n))) = ⊥ := by
        ext u v
        simp [setGraph_adj]
      exact forestInv_start (hempty ▸ spans_init) (fun u v hv => by cases hv) (hempty ▸ bot_le) _ _
  exact h.2

theorem run_unfailing (hn : n < 2 ^ 32) (hT : 0 < T) (hTn : T ≤ n) (hidx : ∀ v, (sketches v).sampleIdx = 0)
    {ls : List (Label n T)}
    (hl : Meets (step owner priority) FinalLoad (start owner sketches) ls)
    (hc : Meets (step owner priority) (fun s _ => s.phase.NoFail) (start owner sketches) ls)
    (hs : exec (step owner priority) (start owner sketches) ls = some s) :
    ∀ k < s.completed, ¬ Failed (blockOutcome sketches k) (partitionAt (blockOutcome sketches) k) := by
  have hn0 : 0 < n := hT.trans_le hTn
  have h : (Inv owner priority sketches s ∧ Follows priority sketches s) ∧
      ∀ k < s.completed, ¬ Failed (blockOutcome sketches k) (partitionAt (blockOutcome sketches) k) := by
    refine exec_invariant_of_meets (I := fun s => (Inv owner priority sketches s ∧ Follows priority sketches s) ∧
      ∀ k < s.completed, ¬ Failed (blockOutcome sketches k) (partitionAt (blockOutcome sketches) k)) _
      (fun s l s' h hl hs => ?_) ⟨⟨inv_start hn hT hTn hidx, follows_start⟩, fun k hk => absurd hk (Nat.not_lt_zero k)⟩
      (meets_and _ hl hc) hs
    obtain ⟨⟨hinv, hf⟩, hfail⟩ := h
    exact ⟨⟨inv_step hn hn0 hT hTn hinv hs, follows_step hn0 hinv hf hl.1 hs⟩, unfailing_step hn0 hinv hf hfail hl.2 hs⟩
  exact h.2

omit [DecidableRel G.Adj] in
/-- a call that has returned has found the components -/
theorem sets_eq_reachable (hf : Follows priority sketches s) (hfits : ∀ k < s.completed, FitsAt G (blockOutcome sketches) k)
    (hinv : Inv owner priority sketches s) {k : ℕ} {w : Boruvka.St P n T} (hphase : s.phase = .returned k w) :
    sets w.parent = G.reachableSetoid := by
  unfold Inv at hinv
  unfold Follows at hf
  unfold St.completed at hfits
  rw [hphase] at hinv hf
  simp only [hphase, hinv.1] at hfits
  obtain ⟨hsets, hsettled, -⟩ := hf
  rw [hsets]
  exact eq_reachable_of_settled (partitionAt_le_reachable fun j hj => hfits j (hj.trans k.lt_succ_self)) (hfits k k.lt_succ_self)
    hsettled

/-- the sketches that the threads are about to sample name two vertices, if good -/
theorem decodes_about (hn : n ≤ 2 ^ 32) (hb : ∀ v, (sketches v).buckets = graphSketch P G v)
    (hinv : Inv owner priority sketches s) (hf : Follows priority sketches s) (hc : s.NoFalse G) {skt : Sketch P}
    (hskt : s.phase.About skt) : Decodes n skt := by
  unfold Inv at hinv
  unfold Follows at hf
  unfold St.NoFalse at hc
  unfold Phase.About at hskt
  split at hskt
  next mergeInstr w hphase =>
    rw [hphase] at hinv hf hc
    obtain ⟨⟨name, hnames⟩, -⟩ := hf
    obtain ⟨t, hskt⟩ := hskt
    have hg := hinv.2.2.grouped
    obtain ⟨skts, slot, hp, ho⟩ := hinv.2.2.once
    obtain ⟨ρ, hρ, hidx, htotal⟩ := ho.about_total hp hskt
    obtain ⟨i, hi⟩ := (hg.present_iff ρ).1 hρ
    refine decodes_cut hn hidx (noFalse_block hnames hg hc (mergeInstr i).child) fun hr b hwin => ?_
    rw [htotal hr b hwin, ← hi, hnames.root, hnames.supernode_eq hg]
    simp only [hb]
    rw [sum_graphSketch hn]
  all_goals exact hskt.elim

end run

/-! ## Runs on fixed sketches -/

def streamIds (stream : List (Fin n × Fin n)) : Finset (BitVec 64) := (stream.map fun e => edgeIdx e.1 e.2).toFinset

/-- only updated edges can leave a supernode -/
theorem noFalse_of_stream {stream : List (Fin n × Fin n)} (h : Sketch.NoFalseChecksum P (streamIds stream)) (s : St P n T) :
    s.NoFalse (oddGraph stream) := by
  have hcut : ∀ B, cutIds (oddGraph stream) B ⊆ streamIds stream := by
    intro B x hx
    obtain ⟨u, -, w, -, hadj, rfl⟩ := mem_cutIds.1 hx
    have hodd : s(u, w) ∈ oddSet (stream.map pairEdge) := (oddGraph_adj.1 hadj).1
    obtain ⟨e, he, hpair⟩ := List.mem_map.1 (List.mem_toFinset.1 (Finset.mem_filter.1 hodd).1)
    refine List.mem_toFinset.2 (List.mem_map.2 ⟨e, he, ?_⟩)
    rcases Sym2.eq_iff.1 hpair with ⟨h1, h2⟩ | ⟨h1, h2⟩
    · rw [h1, h2]
    · rw [h1, h2, edgeIdx_comm]
  unfold St.NoFalse
  split
  · exact fun i => ⟨h _ (hcut _), fun c _ d _ => h _ ((Finset.filter_subset _ _).trans (hcut _))⟩
  all_goals trivial

theorem pair_noFalse : Sketch.NoFalseChecksum pair (streamIds pairStream) := by
  unfold Sketch.NoFalseChecksum
  decide +kernel

theorem pairTeam_noFail : Meets (step id pairPriority) (fun s _ => s.phase.NoFail) pairTeamStart pairTeam := by decide +kernel

/-- the hash of the m-th edge has one bit from 8 on -/
theorem racing_bit : ∀ m ≤ 11, ∀ k < 11,
    (1#64 <<< (m / 2) ||| 1#64 <<< (8 + m)).getLsbD (8 + k) = decide (k = m) := by decide

theorem racingIds_idxOf_lt {y : BitVec 64} (hy : y ∈ racingIds) : racingIds.idxOf y < 11 := List.idxOf_lt_length_iff.2 hy

theorem racing_hash_bit (z : BitVec 64) {y : BitVec 64} (hy : y ∈ racingIds) :
    (Bucket.getIndexHash racing z racing.checksumSeed).getLsbD (8 + racingIds.idxOf y) = decide (y = z) := by
  rw [show Bucket.getIndexHash racing z racing.checksumSeed =
    1#64 <<< (racingIds.idxOf z / 2) ||| 1#64 <<< (8 + racingIds.idxOf z) from rfl]
  rw [racing_bit _ List.idxOf_le_length _ (racingIds_idxOf_lt hy), decide_eq_decide]
  exact List.idxOf_inj hy

/-- the bits from 8 on of a bucket name the edges that it holds -/
theorem racing_sum_bit {A : Finset (BitVec 64)} {y : BitVec 64} (hy : y ∈ racingIds) :
    (∑ x ∈ A, Sketch.entry racing x).gamma.getLsbD (8 + racingIds.idxOf y) = decide (y ∈ A) := by
  induction A using Finset.induction with
  | empty => simp [Bucket.zero_def]
  | insert x A hx ih =>
    rw [Finset.sum_insert hx, Bucket.add_def, BitVec.getLsbD_xor, ih, Sketch.entry, racing_hash_bit x hy]
    by_cases h : y = x
    · subst h
      simp [hx]
    · simp [h]

theorem racing_noFalse : Sketch.NoFalseChecksum racing (streamIds racingEdges) := by
  intro A hA
  have hmem : ∀ {y}, y ∈ A → y ∈ racingIds := fun hy => List.mem_toFinset.1 (hA hy)
  constructor
  · intro hcard
    rw [Bool.eq_false_iff]
    intro hgood
    have hgamma := beq_iff_eq.1 hgood
    rcases A.eq_empty_or_nonempty with rfl | ⟨y, hy⟩
    · exact absurd hgood (by decide +kernel)
    · -- every edge of the bucket is the one that its alpha names
      have hall : ∀ y ∈ A, y = (∑ x ∈ A, Sketch.entry racing x).alpha := by
        intro y hy
        have hbit := racing_sum_bit (A := A) (hmem hy)
        rw [hgamma, racing_hash_bit _ (hmem hy), decide_eq_decide] at hbit
        exact hbit.2 hy
      exact hcard (Finset.card_eq_one.2 ⟨y, Finset.eq_singleton_iff_unique_mem.2
        ⟨hy, fun x hx => (hall x hx).trans (hall y hy).symm⟩⟩)
  · rintro ⟨y, hy⟩ h0
    have hbit := racing_sum_bit (A := A) (hmem hy)
    rw [h0, decide_eq_true hy] at hbit
    simp [Bucket.zero_def] at hbit

theorem racing_adj : (oddGraph racingEdges).Adj (Threads.nth 10) (Threads.nth 11) := oddGraph_adj.2 (by decide)

theorem TwoSets.sets_parity {w : Boruvka.St P 12 T} (h : TwoSets w) (u v : Fin 12) :
    sets w.parent u v ↔ u.val % 2 = v.val % 2 := by
  rw [sets_iff, Same, Fin.ext_iff, h, h]
  omega

theorem TwoSets.not_same {w : Boruvka.St P 12 T} (h : TwoSets w) : ¬ Same w.parent (Threads.nth 10) (Threads.nth 11) := by
  rw [← sets_iff, h.sets_parity]
  decide

theorem racing_noFail : Meets (step halfOwner racingPriority) (fun s _ => s.phase.NoFail) (start halfOwner racingSketch)
    (racingFirst ++ racingSecond) := by decide +kernel

/-! ## The components -/

/-- **Boruvka finds the components.** The vertex sketches hold the graph of the edges toggled an odd number of times,
and no index set that occurs has a false checksum. If every `find_root` of `create_merge_instructions` makes its last
load where that load gives a root, then, whatever the schedule, the team size and the priorities: a call that returns
leaves two vertices with one root if and only if the graph connects them, and `spanning_forest` holds edges of the
graph, the smaller end first, without a cycle, as many as there are vertices but one for each component. -/
theorem components_exact {sketches : Fin n → Sketch P} {stream : List (Fin n × Fin n)} {owner : Fin n → Fin T}
    {priority : Fin n → ℕ} {ls : List (Label n T)} {s : St P n T} {k : ℕ} {w : Boruvka.St P n T} (hn : n < 2 ^ 32) (hT : 0 < T)
    (hTn : T ≤ n) (hidx : ∀ v, (sketches v).sampleIdx = 0) (happlied : ∀ v, (sketches v).buckets = pairSum P v (copies stream))
    (hc : Meets (step owner priority) (fun s _ => s.NoFalse (oddGraph stream)) (start owner sketches) ls)
    (hl : Meets (step owner priority) FinalLoad (start owner sketches) ls)
    (hs : exec (step owner priority) (start owner sketches) ls = some s) (hphase : s.phase = .returned k w) :
    (∀ u v, Same w.parent u v ↔ (oddGraph stream).Reachable u v) ∧
      (∀ u, ∀ v ∈ w.spanningForest u, u < v ∧ (oddGraph stream).Adj u v) ∧
      IsSpanningForest (setGraph w.spanningForest) (oddGraph stream) ∧
      ∑ v, (w.spanningForest v).card + Nat.card (oddGraph stream).ConnectedComponent = n := by
  have hb : ∀ v, (sketches v).buckets = graphSketch P (oddGraph stream) v := fun v => (happlied v).trans (pairSum_copies v stream)
  obtain ⟨hinv, hf⟩ := run_follows hn hT hTn hidx hl hs
  obtain ⟨hfits, hforest⟩ := run_fits hn hT hTn hidx hb hl hc hs
  have hsets := sets_eq_reachable hf hfits hinv hphase
  rw [hphase] at hforest
  have hsame : ∀ u v, Same w.parent u v ↔ (oddGraph stream).Reachable u v := fun u v => by
    rw [← sets_iff, hsets]
    rfl
  refine ⟨hsame, fun u v hv => ⟨hforest.below u v hv, hforest.le (setGraph_adj.2 ⟨(hforest.below u v hv).ne, .inl hv⟩)⟩,
    ⟨hforest.le, hforest.spans.acyclic, fun u v huv => (hforest.spans.reach u v).2 ((hsame u v).2 huv)⟩, ?_⟩
  have hcount := hforest.spans.count
  rw [ncard_setGraph hforest.below, card_roots_eq_components hforest.ord fun u v => (hsame u v).symm, Fintype.card_fin] at hcount
  exact hcount

theorem components_exact_pair : ∃ s w, exec (step id pairPriority) pairTeamStart pairTeam = some s ∧ s.phase = .returned 1 w ∧
    (∀ u v, Same w.parent u v ↔ (oddGraph pairStream).Reachable u v) ∧
    IsSpanningForest (setGraph w.spanningForest) (oddGraph pairStream) := by
  obtain ⟨s, hs, hret⟩ := pairTeam_returned
  obtain ⟨w, hphase, -⟩ := hret.state
  have h := components_exact (by norm_num) (by norm_num) le_rfl (fun _ => rfl) (fun _ => rfl)
    (meets_of_forall _ (fun _ _ => noFalse_of_stream pair_noFalse) _) pairTeam_finalLoad hs hphase
  exact ⟨s, w, hs, hphase, h.1, h.2.2.1⟩

/-- **A call that leaves two components of a connected graph.** Two threads race in `create_merge_instructions`; in
round 1 the supernodes are {0}, {1} and what is left of the two sets, each of them samples an edge within its own set,
and the call returns. -/
theorem split_supernodes : ∃ s w,
    Meets (step halfOwner racingPriority) (fun s _ => s.NoFalse (oddGraph racingEdges)) (start halfOwner racingSketch)
      (racingFirst ++ racingSecond) ∧
    exec (step halfOwner racingPriority) (start halfOwner racingSketch) (racingFirst ++ racingSecond) = some s ∧
    s.phase = .returned 1 w ∧ (oddGraph racingEdges).Reachable (Threads.nth 10) (Threads.nth 11) ∧
    ¬ Same w.parent (Threads.nth 10) (Threads.nth 11) := by
  obtain ⟨s₁, hs₁, -, -, s, hs, -, hret⟩ := racing_returned
  obtain ⟨w, hphase, htwo⟩ := hret.state
  exact ⟨s, w, meets_of_forall _ (fun _ _ => noFalse_of_stream racing_noFalse) _, (exec_append _ _ hs₁).trans hs, hphase,
    racing_adj.reachable, htwo.not_same⟩

/-! ## Halving -/

/-- the union-find and the forest behind a round -/
def Phase.behind : Phase P n T → Option (Boruvka.St P n T)
  | .create w _ | .returned _ w => some w
  | .round .. | .threw .. => none

section halving

variable {owner : Fin n → Fin T} {priority : Fin n → ℕ} {sketches : Fin n → Sketch P} {s : St P n T}

/-- the partition that a round begins with -/
theorem sets_begin (hf : Follows priority sketches s) {mergeInstr : Fin n → MergeInstr n} {w : Boruvka.St P n T}
    (hphase : s.phase = .round mergeInstr w) (hnone : w.sampled = []) :
    sets w.parent = partitionAt (blockOutcome sketches) s.roundNum := by
  unfold Follows at hf
  rw [hphase] at hf
  obtain ⟨-, hsim, -⟩ := hf
  refine le_antisymm (hsim.upper.trans (joined_le le_rfl fun e he => ?_)) hsim.lower
  obtain ⟨x, hx, -⟩ := he
  rw [hnone] at hx
  cases hx

/-- the partition that it ends with -/
theorem sets_behind (hinv : Inv owner priority sketches s) (hf : Follows priority sketches s) {w : Boruvka.St P n T}
    (hbehind : s.phase.behind = some w) :
    sets w.parent = partitionAt (blockOutcome sketches) (s.roundNum + 1) ∧ s.completed = s.roundNum + 1 := by
  unfold Inv at hinv
  unfold Follows at hf
  unfold St.completed
  cases hphase : s.phase with
  | round | threw =>
    rw [hphase] at hbehind
    cases hbehind
  | create w' c =>
    rw [hphase] at hbehind hf
    cases hbehind
    exact ⟨hf.1, rfl⟩
  | returned k w' =>
    rw [hphase] at hbehind hf hinv
    cases hbehind
    rw [hinv.1]
    exact ⟨hf.1.trans hf.2.1.2.symm, rfl⟩

omit [DecidableRel G.Adj] in
/-- without failures there are at most `log 2 n` rounds before the last one, and the call does not throw -/
theorem roundNum_le_log (hinv : Inv owner priority sketches s) (hf : Follows priority sketches s)
    (hfits : ∀ k < s.completed, FitsAt G (blockOutcome sketches) k)
    (hfail : ∀ k < s.completed, ¬ Failed (blockOutcome sketches k) (partitionAt (blockOutcome sketches) k))
    (hlog : Nat.log 2 n < P.numSamples) : s.roundNum ≤ Nat.log 2 n ∧ ∀ e w, s.phase ≠ .threw e w := by
  have hround : ∀ {r}, r < s.completed → ¬ SettledAt (blockOutcome sketches) r → r < Nat.log 2 n := by
    intro r hr hns
    have := lt_log_of_not_settled (G := G) (fun k hk => hfits k (hk.trans_lt hr)) (fun k hk => hfail k (hk.trans_lt hr)) hns
    rwa [Fintype.card_fin] at this
  unfold Inv at hinv
  unfold Follows at hf
  cases hphase : s.phase with
  | round mergeInstr w =>
    rw [hphase] at hf
    refine ⟨?_, fun e w h => by cases h⟩
    by_cases h0 : s.roundNum = 0
    · exact h0 ▸ Nat.zero_le _
    · have hlt : s.roundNum - 1 < s.roundNum := by omega
      have := hround (by simp only [St.completed, hphase]; exact hlt) (hf.2.2 _ hlt)
      omega
  | create w c =>
    rw [hphase] at hf
    have := hround (by simp only [St.completed, hphase]; exact Nat.lt_succ_self _) (hf.2.2 _ (Nat.lt_succ_self _))
    exact ⟨this.le, fun e w h => by cases h⟩
  | returned k w =>
    rw [hphase] at hf hinv
    refine ⟨?_, fun e w h => by cases h⟩
    by_cases h0 : k = 0
    · omega
    · have := hround (r := k - 1) (by simp only [St.completed, hphase]; omega) (hf.2.2 _ (by omega))
      omega
  | threw e w =>
    rw [hphase] at hf hinv
    have := hround (by simp only [St.completed, hphase]; omega) (hf _ hlog)
    exact absurd this (lt_irrefl _)

end halving

/-- **The number of components that an edge leaves halves in every round**, in a run in which no sample fails and no
index set that occurs has a false checksum, if every `find_root` of `create_merge_instructions` makes its last load
where that load gives a root: `w₁` is the state in which a round begins, before any sample, and `w₂` the one that it
leaves. With more than `log 2 n` samples, the run is never in a later round than that and does not throw; until it has
returned, some step can be made, and it goes on for ever only if compare-exchanges fail spuriously again and again. -/
theorem halves {sketches : Fin n → Sketch P} {stream : List (Fin n × Fin n)} {owner : Fin n → Fin T} {priority : Fin n → ℕ}
    (hn : n < 2 ^ 32) (hT : 0 < T) (hTn : T ≤ n) (hidx : ∀ v, (sketches v).sampleIdx = 0)
    (happlied : ∀ v, (sketches v).buckets = pairSum P v (copies stream)) :
    (∀ ls s, exec (step owner priority) (start owner sketches) ls = some s →
      Meets (step owner priority) (fun s _ => s.NoFalse (oddGraph stream)) (start owner sketches) ls →
      Meets (step owner priority) (fun s _ => s.phase.NoFail) (start owner sketches) ls →
      Meets (step owner priority) FinalLoad (start owner sketches) ls →
      (∀ ls₁ ls₂ s₁ mergeInstr w₁ w₂, ls = ls₁ ++ ls₂ → exec (step owner priority) (start owner sketches) ls₁ = some s₁ →
        s₁.phase = .round mergeInstr w₁ → w₁.sampled = [] → s.phase.behind = some w₂ → s.roundNum = s₁.roundNum →
        2 * (active (oddGraph stream) (sets w₂.parent)).card ≤ (active (oddGraph stream) (sets w₁.parent)).card) ∧
      (Nat.log 2 n < P.numSamples →
        s.roundNum ≤ Nat.log 2 n ∧ (∀ e w, s.phase ≠ .threw e w) ∧
        (∀ lastQueryRounds w, s.phase = .returned lastQueryRounds w → lastQueryRounds ≤ Nat.log 2 n) ∧
        (¬ s.phase.Ended → s.NoFalse (oddGraph stream) → ∃ l s', step owner priority s l = some s'))) ∧
    ∀ states ls, Endless (step owner priority) states ls → states 0 = start owner sketches →
      ∀ k, ∃ j, k ≤ j ∧ Spurious (states j) (ls j) := by
  have hb : ∀ v, (sketches v).buckets = graphSketch P (oddGraph stream) v := fun v => (happlied v).trans (pairSum_copies v stream)
  refine ⟨fun ls s hs hc hfail hl => ?_, fun states ls => again_and_again_spurious hn hT hTn hidx⟩
  obtain ⟨hinv, hf⟩ := run_follows hn hT hTn hidx hl hs
  obtain ⟨hfits, -⟩ := run_fits hn hT hTn hidx hb hl hc hs
  have hunfailing := run_unfailing hn hT hTn hidx hl hfail hs
  refine ⟨fun ls₁ ls₂ s₁ mergeInstr w₁ w₂ happend hs₁ hphase hnone hbehind hround => ?_, fun hlog => ?_⟩
  · subst happend
    obtain ⟨-, hf₁⟩ := run_follows hn hT hTn hidx (meets_append _ hs₁ hl).1 hs₁
    obtain ⟨hsets, hcompleted⟩ := sets_behind hinv hf hbehind
    have hlt : s₁.roundNum < s.completed := by omega
    rw [hsets, hround, sets_begin hf₁ hphase hnone]
    exact two_mul_card_active_next_le (hfits _ hlt) (hunfailing _ hlt)
  · obtain ⟨hle, hthrow⟩ := roundNum_le_log hinv hf hfits hunfailing hlog
    refine ⟨hle, hthrow, fun k w hphase => ?_, fun hend hc' => hinv.enabled hend fun skt => decodes_about hn.le hb hinv hf hc'⟩
    unfold Inv at hinv
    rw [hphase] at hinv
    exact hinv.1 ▸ hle

theorem halves_pair : ∃ s w, exec (step id pairPriority) pairTeamStart pairTeam = some s ∧ s.phase.behind = some w ∧
    s.roundNum ≤ Nat.log 2 2 := by
  obtain ⟨s, hs, hret⟩ := pairTeam_returned
  obtain ⟨w, hphase, -⟩ := hret.state
  have happlied : ∀ v, (pairSketch v).buckets = pairSum pair v (copies pairStream) := fun _ => rfl
  have h := ((halves (by norm_num) (by norm_num) le_rfl (fun _ => rfl) happlied).1 pairTeam s hs
    (meets_of_forall _ (fun _ _ => noFalse_of_stream pair_noFalse) _) pairTeam_noFail pairTeam_finalLoad).2 (by decide)
  exact ⟨s, w, hs, by rw [hphase]; rfl, h.1⟩

/-- **A round that halves nothing.** The same run: no sample fails, but round 1 begins with two sets that an edge
leaves, and leaves both. -/
theorem not_halved : ∃ s₁ s₂ mergeInstr w₁ w₂,
    Meets (step halfOwner racingPriority) (fun s _ => s.NoFalse (oddGraph racingEdges)) (start halfOwner racingSketch)
      (racingFirst ++ racingSecond) ∧
    Meets (step halfOwner racingPriority) (fun s _ => s.phase.NoFail) (start halfOwner racingSketch)
      (racingFirst ++ racingSecond) ∧
    exec (step halfOwner racingPriority) (start halfOwner racingSketch) racingFirst = some s₁ ∧
    exec (step halfOwner racingPriority) (start halfOwner racingSketch) (racingFirst ++ racingSecond) = some s₂ ∧
    s₁.phase = .round mergeInstr w₁ ∧ w₁.sampled = [] ∧ s₂.phase.behind = some w₂ ∧ s₂.roundNum = s₁.roundNum ∧
    ¬ 2 * (active (oddGraph racingEdges) (sets w₂.parent)).card ≤ (active (oddGraph racingEdges) (sets w₁.parent)).card := by
  obtain ⟨s₁, hs₁, hround₁, hbegin, s₂, hs₂, hround₂, hret⟩ := racing_returned
  obtain ⟨mergeInstr, w₁, hphase₁, hnone, htwo₁⟩ := hbegin.state
  obtain ⟨w₂, hphase₂, htwo₂⟩ := hret.state
  have hsets : sets w₂.parent = sets w₁.parent := Setoid.ext fun u v => by rw [htwo₂.sets_parity, htwo₁.sets_parity]
  refine ⟨s₁, s₂, mergeInstr, w₁, w₂, meets_of_forall _ (fun _ _ => noFalse_of_stream racing_noFalse) _, racing_noFail, hs₁,
    (exec_append _ _ hs₁).trans hs₂, hphase₁, hnone, by rw [hphase₂]; rfl, hround₂.trans hround₁.symm, ?_⟩
  have hactive : block (sets w₁.parent) (Threads.nth 10) ∈ _ := block_mem_active racing_adj htwo₁.not_same
  have hpos := Finset.card_pos.2 ⟨_, hactive⟩
  rw [hsets]
  omega

end GraphStreamingCC.Boruvka.Emulation
