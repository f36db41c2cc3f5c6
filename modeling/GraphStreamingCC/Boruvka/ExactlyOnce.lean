/-
Each supernode is sampled once in a Boruvka round.

For a root there is one token: a sample that a thread has still to make on its own, or the merges into the slot of the
root that are still to come, or a thread whose merge was the last and that is about to sample the slot, or an entry of
the list `sampled` (`OnceInv.tokens`). `num_merge_done` and the merges to come add up to the number of threads the
supernode is spread over, and `num_merge_needed` is this number or, while the first thread has not announced it, larger
than any number of threads; so the ready test passes at the last merge and only there. `OnceAt` says this of one root,
and a step that does not concern the root keeps it (`OnceAt.frame`). `OnceInv` holds for every plan (`Plan`), so for
round 0 as for later ones.
-/
import GraphStreamingCC.Boruvka.Plan
import GraphStreamingCC.Sketch.Sampling

namespace GraphStreamingCC.Boruvka

open Dsu Runs

variable {P : Params} {n T : ℕ}

/-! ## What a thread has left for a root -/

/-- between a ready test that was passed and the sample -/
def Pc.readyFor (ρ : Fin n) : Pc n → ℕ
  | .ready _ root => if root = ρ then 1 else 0
  | .idle | .merge .. | .insert _ | .mark => 0

/-- the samples of root ρ that are left to this thread in any case -/
def Thread.tokens (ρ : Fin n) (x : Thread P n) : ℕ := samples ρ x.acts + x.pc.readyFor ρ

/-- how often the root was sampled -/
def times (ρ : Fin n) (sampled : List (Fin n × Sketch P)) : ℕ := sampled.countP fun x => x.1 = ρ

theorem times_cons (ρ : Fin n) (x : Fin n × Sketch P) (sampled : List (Fin n × Sketch P)) :
    times ρ (x :: sampled) = times ρ sampled + if x.1 = ρ then 1 else 0 := by
  simp [times, List.countP_cons]

theorem view_suffix {ρ : Fin n} {acts acts' : List (Act P n)} (h : acts' <:+ acts) : view ρ acts' <:+ view ρ acts :=
  h.filter _

theorem merges_le {ρ : Fin n} {acts acts' : List (Act P n)} (h : acts' <:+ acts) : merges ρ acts' ≤ merges ρ acts :=
  (view_suffix h).sublist.countP_le

theorem samples_le {ρ : Fin n} {acts acts' : List (Act P n)} (h : acts' <:+ acts) : samples ρ acts' ≤ samples ρ acts :=
  (view_suffix h).sublist.countP_le

section shape

variable {slot needed : ℕ} {ρ : Fin n} {l l' : List (Act P n)}

theorem Shape.suffix (h : Shape slot ρ needed l) (hl : l' <:+ l) : Shape slot ρ needed l' := by
  cases h with
  | nothing =>
    rw [List.suffix_nil.1 hl]
    exact .nothing
  | vertex =>
    rcases List.suffix_cons_iff.1 hl with rfl | hl
    · exact .vertex
    · rw [List.suffix_nil.1 hl]
      exact .nothing
  | localSketch skt =>
    rcases List.suffix_cons_iff.1 hl with rfl | hl
    · exact .localSketch skt
    · rw [List.suffix_nil.1 hl]
      exact .nothing
  | part skt =>
    rcases List.suffix_cons_iff.1 hl with rfl | hl
    · exact .part skt
    · rw [List.suffix_nil.1 hl]
      exact .nothing
  | firstPart skt =>
    rcases List.suffix_cons_iff.1 hl with rfl | hl
    · exact .firstPart skt
    · rcases List.suffix_cons_iff.1 hl with rfl | hl
      · exact .part skt
      · rw [List.suffix_nil.1 hl]
        exact .nothing

/-- a thread that has neither a sample nor a merge left for the root has nothing left for it -/
theorem Shape.eq_nil (h : Shape slot ρ needed l) (hs : l.countP Act.isSample = 0) (hm : l.countP Act.isMerge = 0) :
    l = [] := by
  cases h with
  | nothing => rfl
  | vertex | localSketch => simp [Act.isSample] at hs
  | part | firstPart => simp [Act.isMerge] at hm

/-- an announcement is followed by a merge -/
theorem Shape.merge_of_length (h : Shape slot ρ needed l) (hl : 1 < l.length) : l.countP Act.isMerge = 1 := by
  cases h with
  | firstPart => simp [Act.isMerge]
  | nothing | vertex | localSketch | part => simp at hl

theorem Shape.of_setNeeded {id k : ℕ} {ρ' : Fin n} (h : Shape slot ρ needed (.setNeeded id ρ' k :: l)) :
    id = slot ∧ k = needed ∧ l.countP Act.isMerge = 1 := by
  cases h with
  | firstPart => exact ⟨rfl, rfl, by simp [Act.isMerge]⟩

theorem Shape.of_mergeGlobal {id : ℕ} {ρ' : Fin n} {skt : Sketch P} (h : Shape slot ρ needed (.mergeGlobal id ρ' skt :: l)) :
    id = slot ∧ l = [] := by
  cases h with
  | part => exact ⟨rfl, rfl⟩

theorem Shape.of_sample {a : Act P n} (h : Shape slot ρ needed (a :: l)) (ha : a.isSample = true) : l = [] := by
  cases h with
  | vertex | localSketch | part => rfl
  | firstPart => cases ha

end shape

theorem content_nil {sketches : Fin n → Sketch P} {ρ : Fin n} {acts : List (Act P n)} (h : view ρ acts = []) :
    content sketches ρ acts = 0 := by
  rw [content, h]
  rfl

/-! ## The invariant -/

section

variable {r : ℕ} {sketches : Fin n → Sketch P} {progs : Fin T → List (Act P n)} {present : Fin n → Prop}
  [DecidablePred present] {slot : Fin n → ℕ} {total : Fin n → Content P} {s s' : St P n T}

/-- the merges of all threads that are still to come for the root -/
def St.mergesLeft (s : St P n T) (ρ : Fin n) : ℕ := ∑ t, merges ρ (s.thr t).acts

theorem St.merges_le_left (s : St P n T) (ρ : Fin n) (t : Fin T) : merges ρ (s.thr t).acts ≤ s.mergesLeft ρ :=
  Threads.le_sum (fun j => merges ρ (s.thr j).acts) t

theorem merges_le_width (progs : Fin T → List (Act P n)) (ρ : Fin n) (t : Fin T) : merges ρ (progs t) ≤ width progs ρ :=
  Threads.le_sum (fun j => merges ρ (progs j)) t

structure OnceInv (r : ℕ) (sketches : Fin n → Sketch P) (progs : Fin T → List (Act P n)) (present : Fin n → Prop)
    [DecidablePred present] (slot : Fin n → ℕ) (total : Fin n → Content P) (s : St P n T) : Prop where
  suffix : ∀ t, (s.thr t).acts <:+ progs t
  tokens : ∀ ρ, times ρ s.sampled + ∑ t, (s.thr t).tokens ρ + min 1 (s.mergesLeft ρ) = if present ρ then 1 else 0
  done : ∀ ρ, 0 < width progs ρ → (s.globalMerges (slot ρ)).numMergeDone + s.mergesLeft ρ = width progs ρ
  needed : ∀ ρ, 0 < width progs ρ → (s.globalMerges (slot ρ)).numMergeNeeded = width progs ρ ∨
    (s.globalMerges (slot ρ)).numMergeNeeded = 2 ^ 64 - 1 ∧ ∃ t, 1 < (view ρ (s.thr t).acts).length
  unused : ∀ id, (∀ ρ, 0 < width progs ρ → slot ρ ≠ id) → s.globalMerges id = .fresh P
  ready : ∀ t id ρ, (s.thr t).pc = .ready id ρ → id = slot ρ ∧ 0 < width progs ρ
  /-- what has been merged into the slot and what is still to come -/
  parts : ∀ ρ, times ρ s.sampled = 0 → present ρ → r < P.numSamples → ∀ b, Sketch.InWindow P r b →
    (if 0 < width progs ρ then (s.globalMerges (slot ρ)).sketch.buckets b else 0) +
      ∑ t, content sketches ρ (s.thr t).acts b = total ρ b
  slotIdx : ∀ ρ, 0 < width progs ρ → times ρ s.sampled = 0 →
    (s.globalMerges (slot ρ)).sketch.sampleIdx ≤ min r P.numSamples ∧
      (0 < (s.globalMerges (slot ρ)).numMergeDone → (s.globalMerges (slot ρ)).sketch.sampleIdx = min r P.numSamples)
  vertex : ∀ v, times v s.sampled = 0 → s.sketches v = sketches v
  log : ∀ x ∈ s.sampled, x.2.sampleIdx = min r P.numSamples ∧
    (r < P.numSamples → ∀ b, Sketch.InWindow P r b → x.2.buckets b = total x.1 b)
  err : s.err ≠ none ↔ P.numSamples ≤ r ∧ s.sampled ≠ []

theorem onceInv_start (hp : Plan r sketches progs present slot total) (parent : Fin n → Fin n)
    (forest : Fin n → Finset (Fin n)) : OnceInv r sketches progs present slot total (start sketches parent forest progs) where
  suffix _ := List.suffix_refl _
  tokens ρ := by
    by_cases hρ : present ρ
    · rw [if_pos hρ]
      have := hp.once ρ hρ
      simpa [times, start, Thread.tokens, Pc.readyFor, St.mergesLeft, width] using this
    · rw [if_neg hρ]
      have := hp.absent ρ hρ
      simp [times, start, Thread.tokens, Pc.readyFor, St.mergesLeft, samples, merges, this]
  done ρ _ := by simp [start, GlobalMergeData.fresh, St.mergesLeft, width]
  needed ρ hρ := by
    obtain ⟨t, skt, ht⟩ := hp.announced ρ hρ
    exact .inr ⟨rfl, t, by simp [start, ht]⟩
  unused _ _ := rfl
  ready t id ρ hpc := by cases hpc
  parts ρ _ hρ hr b hb := by
    have := hp.sum hr ρ hρ b hb
    have hzero : (GlobalMergeData.fresh P).sketch.buckets b = 0 := rfl
    simp only [start, hzero, ite_self, zero_add]
    exact this
  slotIdx ρ _ _ := ⟨Nat.zero_le _, fun h => absurd h (lt_irrefl 0)⟩
  vertex _ _ := rfl
  log x hx := absurd hx List.not_mem_nil
  err := by simp [start]

/-! ## Steps -/

theorem sum_thr {M : Type*} [AddCommMonoid M] (f : Thread P n → M) {t : Fin T} {x : Thread P n}
    (hthr : s'.thr = Function.update s.thr t x) : ∑ j, f (s'.thr j) + f (s.thr t) = ∑ j, f (s.thr j) + f x := by
  rw [hthr]
  exact Threads.sum_update f s.thr t x

theorem mergesLeft_update {t : Fin T} {x : Thread P n} (hthr : s'.thr = Function.update s.thr t x) (ρ : Fin n) :
    s'.mergesLeft ρ + merges ρ (s.thr t).acts = s.mergesLeft ρ + merges ρ x.acts :=
  sum_thr (fun x => merges ρ x.acts) hthr

/-- what a thread that does not move has, the others included -/
theorem thr_congr {β : Type*} (f : Thread P n → β) {t : Fin T} {x : Thread P n} (hthr : s'.thr = Function.update s.thr t x)
    (hx : f x = f (s.thr t)) (t' : Fin T) : f (s'.thr t') = f (s.thr t') := by
  rw [hthr]
  exact Threads.apply_update f hx t'

/-- what the invariant says of one root -/
structure OnceAt (r : ℕ) (sketches : Fin n → Sketch P) (progs : Fin T → List (Act P n)) (present : Fin n → Prop)
    [DecidablePred present] (slot : Fin n → ℕ) (total : Fin n → Content P) (s : St P n T) (ρ : Fin n) : Prop where
  tokens : times ρ s.sampled + ∑ t, (s.thr t).tokens ρ + min 1 (s.mergesLeft ρ) = if present ρ then 1 else 0
  done : 0 < width progs ρ → (s.globalMerges (slot ρ)).numMergeDone + s.mergesLeft ρ = width progs ρ
  needed : 0 < width progs ρ → (s.globalMerges (slot ρ)).numMergeNeeded = width progs ρ ∨
    (s.globalMerges (slot ρ)).numMergeNeeded = 2 ^ 64 - 1 ∧ ∃ t, 1 < (view ρ (s.thr t).acts).length
  parts : times ρ s.sampled = 0 → present ρ → r < P.numSamples → ∀ b, Sketch.InWindow P r b →
    (if 0 < width progs ρ then (s.globalMerges (slot ρ)).sketch.buckets b else 0) +
      ∑ t, content sketches ρ (s.thr t).acts b = total ρ b
  slotIdx : 0 < width progs ρ → times ρ s.sampled = 0 →
    (s.globalMerges (slot ρ)).sketch.sampleIdx ≤ min r P.numSamples ∧
      (0 < (s.globalMerges (slot ρ)).numMergeDone → (s.globalMerges (slot ρ)).sketch.sampleIdx = min r P.numSamples)
  vertex : times ρ s.sampled = 0 → s.sketches ρ = sketches ρ

theorem OnceInv.at (h : OnceInv r sketches progs present slot total s) (ρ : Fin n) :
    OnceAt r sketches progs present slot total s ρ :=
  ⟨h.tokens ρ, h.done ρ, h.needed ρ, h.parts ρ, h.slotIdx ρ, h.vertex ρ⟩

/-- a step that does not concern the root -/
theorem OnceAt.frame {ρ : Fin n} (h : OnceAt r sketches progs present slot total s ρ)
    (hview : ∀ t, view ρ (s'.thr t).acts = view ρ (s.thr t).acts)
    (hready : ∀ t, (s'.thr t).pc.readyFor ρ = (s.thr t).pc.readyFor ρ) (htimes : times ρ s'.sampled = times ρ s.sampled)
    (hslot : 0 < width progs ρ → s'.globalMerges (slot ρ) = s.globalMerges (slot ρ)) (hvertex : s'.sketches ρ = s.sketches ρ) :
    OnceAt r sketches progs present slot total s' ρ := by
  have hleft : s'.mergesLeft ρ = s.mergesLeft ρ := Finset.sum_congr rfl fun t _ => by rw [merges, hview]; rfl
  have htok : ∀ t, (s'.thr t).tokens ρ = (s.thr t).tokens ρ := fun t => by rw [Thread.tokens, samples, hview, hready]; rfl
  have hcont : ∀ t, content sketches ρ (s'.thr t).acts = content sketches ρ (s.thr t).acts := fun t => by
    rw [content, hview]
    rfl
  refine ⟨?_, fun hρ => ?_, fun hρ => ?_, fun h0 hpresent hr b hb => ?_, fun hρ h0 => ?_, fun h0 => ?_⟩
  · simp only [htimes, htok, hleft]
    exact h.tokens
  · rw [hslot hρ, hleft]
    exact h.done hρ
  · simp only [hslot hρ, hview]
    exact h.needed hρ
  · have hparts := h.parts (htimes ▸ h0) hpresent hr b hb
    simp only [hcont]
    by_cases hw : 0 < width progs ρ
    · rw [hslot hw]
      exact hparts
    · rw [if_neg hw] at hparts ⊢
      exact hparts
  · rw [hslot hρ]
    exact h.slotIdx hρ (htimes ▸ h0)
  · rw [hvertex]
    exact h.vertex (htimes ▸ h0)

/-- a step of thread t, root by root -/
theorem OnceInv.of_at (h : OnceInv r sketches progs present slot total s) {t : Fin T} {x : Thread P n}
    (hthr : s'.thr = Function.update s.thr t x) (hsuf : x.acts <:+ (s.thr t).acts)
    (hready : ∀ id ρ, x.pc = .ready id ρ → id = slot ρ ∧ 0 < width progs ρ)
    (hat : ∀ ρ, OnceAt r sketches progs present slot total s' ρ)
    (hunused : ∀ id, (∀ ρ, 0 < width progs ρ → slot ρ ≠ id) → s'.globalMerges id = s.globalMerges id)
    (hlog : ∀ x ∈ s'.sampled, x.2.sampleIdx = min r P.numSamples ∧
      (r < P.numSamples → ∀ b, Sketch.InWindow P r b → x.2.buckets b = total x.1 b))
    (herr : s'.err ≠ none ↔ P.numSamples ≤ r ∧ s'.sampled ≠ []) : OnceInv r sketches progs present slot total s' where
  suffix t' := by
    rw [hthr]
    exact Threads.forall_update (Q := fun t (x : Thread P n) => x.acts <:+ progs t) h.suffix (hsuf.trans (h.suffix t)) t'
  tokens ρ := (hat ρ).tokens
  done ρ := (hat ρ).done
  needed ρ := (hat ρ).needed
  unused id hid := (hunused id hid).trans (h.unused id hid)
  ready := by
    rw [hthr]
    exact Threads.forall_update (Q := fun _ (x : Thread P n) => ∀ id ρ, x.pc = .ready id ρ → id = slot ρ ∧ 0 < width progs ρ)
      h.ready hready
  parts ρ := (hat ρ).parts
  slotIdx ρ := (hat ρ).slotIdx
  vertex ρ := (hat ρ).vertex
  log := hlog
  err := herr

theorem Pc.ne_ready {pc : Pc n} (h : ∀ ρ, pc.readyFor ρ = 0) (id : ℕ) (ρ : Fin n) : pc ≠ .ready id ρ := by
  rintro rfl
  have := h ρ
  rw [Pc.readyFor, if_pos rfl] at this
  cases this

/-- a step outside of the acts -/
theorem OnceInv.silent (h : OnceInv r sketches progs present slot total s) {t : Fin T} (pc : Pc n)
    (hthr : s'.thr = Function.update s.thr t ⟨(s.thr t).acts, pc⟩) (hpc : ∀ ρ, pc.readyFor ρ = 0)
    (hold : ∀ ρ, (s.thr t).pc.readyFor ρ = 0) (hglobal : s'.globalMerges = s.globalMerges)
    (hsketches : s'.sketches = s.sketches) (hsampled : s'.sampled = s.sampled) (herr : s'.err = s.err) :
    OnceInv r sketches progs present slot total s' := by
  refine h.of_at hthr (List.suffix_refl _) (fun id ρ he => absurd he (Pc.ne_ready hpc id ρ)) (fun ρ => ?_)
    (fun id _ => by rw [hglobal])
    (hsampled ▸ h.log) ?_
  · have hready : (⟨(s.thr t).acts, pc⟩ : Thread P n).pc.readyFor ρ = (s.thr t).pc.readyFor ρ := (hpc ρ).trans (hold ρ).symm
    exact (h.at ρ).frame (thr_congr (fun x => view ρ x.acts) hthr rfl) (thr_congr (fun x => x.pc.readyFor ρ) hthr hready)
      (by rw [hsampled]) (fun _ => by rw [hglobal]) (by rw [hsketches])
  · rw [herr, hsampled]
    exact h.err

/-- where a token of a thread is, there is no other -/
theorem OnceInv.alone (h : OnceInv r sketches progs present slot total s) {t : Fin T} {ρ : Fin n}
    (ht : 0 < (s.thr t).tokens ρ) : present ρ ∧ times ρ s.sampled = 0 ∧ s.mergesLeft ρ = 0 ∧ (s.thr t).tokens ρ = 1 ∧
      ∀ t', t' ≠ t → (s.thr t').tokens ρ = 0 := by
  have htok := h.tokens ρ
  have hsum : (s.thr t).tokens ρ ≤ ∑ j, (s.thr j).tokens ρ := Threads.le_sum (fun j => (s.thr j).tokens ρ) t
  have hρ : present ρ := by
    by_contra hρ
    rw [if_neg hρ] at htok
    omega
  rw [if_pos hρ] at htok
  refine ⟨hρ, by omega, by omega, by omega, fun t' ht' => ?_⟩
  have hle : (s.thr t').tokens ρ + (s.thr t).tokens ρ ≤ ∑ j, (s.thr j).tokens ρ :=
    Threads.add_le_sum (fun j => (s.thr j).tokens ρ) ht'
  omega

/-- what may be stored when the supernode of root ρ is sampled: its slot, if it has one, or its own vertex sketch -/
structure Puts (progs : Fin T → List (Act P n)) (slot : Fin n → ℕ) (ρ : Fin n) (put : St P n T → Sketch P → St P n T) :
    Prop where
  thr : ∀ s skt, (put s skt).thr = s.thr
  sampled : ∀ s skt, (put s skt).sampled = s.sampled
  err : ∀ s skt, (put s skt).err = s.err
  sketches : ∀ s skt v, v ≠ ρ → (put s skt).sketches v = s.sketches v
  global : ∀ s skt id, ((put s skt).globalMerges id).numMergeDone = (s.globalMerges id).numMergeDone ∧
    ((put s skt).globalMerges id).numMergeNeeded = (s.globalMerges id).numMergeNeeded
  other : ∀ s skt id, ¬ (id = slot ρ ∧ 0 < width progs ρ) → (put s skt).globalMerges id = s.globalMerges id

theorem puts_nothing (ρ : Fin n) : Puts progs slot ρ fun s _ => s :=
  ⟨fun _ _ => rfl, fun _ _ => rfl, fun _ _ => rfl, fun _ _ _ _ => rfl, fun _ _ _ => ⟨rfl, rfl⟩, fun _ _ _ _ => rfl⟩

theorem puts_vertex (ρ : Fin n) : Puts progs slot ρ (St.putVertex ρ) :=
  ⟨fun _ _ => rfl, fun _ _ => rfl, fun _ _ => rfl, fun _ _ _ hv => Function.update_of_ne hv _ _,
    fun _ _ _ => ⟨rfl, rfl⟩, fun _ _ _ _ => rfl⟩

theorem puts_global {ρ : Fin n} (hρ : 0 < width progs ρ) : Puts progs slot ρ (St.putGlobal (slot ρ)) where
  thr _ _ := rfl
  sampled _ _ := rfl
  err _ _ := rfl
  sketches _ _ _ _ := rfl
  global s skt id := by
    by_cases hid : id = slot ρ
    · subst hid
      simp only [St.putGlobal, Function.update_self, and_self]
    · simp only [St.putGlobal, Function.update_of_ne hid, and_self]
  other s skt id hid := by
    have hne : id ≠ slot ρ := fun he => hid ⟨he, hρ⟩
    simp only [St.putGlobal, Function.update_of_ne hne]

/-- the two outcomes of a sample, which differ in the exception and in where the thread goes -/
theorem sample_cases {t : Fin T} {acts : List (Act P n)} {ρ : Fin n} {skt : Sketch P}
    {put : St P n T → Sketch P → St P n T} (hput : Puts progs slot ρ put) (hs : s.sample t acts ρ skt put = some s') :
    (∃ pc, s'.thr = Function.update s.thr t ⟨acts, pc⟩ ∧ ∀ ρ', pc.readyFor ρ' = 0) ∧
      s'.sampled = (ρ, skt) :: s.sampled ∧ (s'.err ≠ none ↔ s.err ≠ none ∨ P.numSamples ≤ skt.sampleIdx) ∧
      (∀ v, v ≠ ρ → s'.sketches v = s.sketches v) ∧
      (∀ id, (s'.globalMerges id).numMergeDone = (s.globalMerges id).numMergeDone ∧
        (s'.globalMerges id).numMergeNeeded = (s.globalMerges id).numMergeNeeded) ∧
      ∀ id, ¬ (id = slot ρ ∧ 0 < width progs ρ) → s'.globalMerges id = s.globalMerges id := by
  simp only [St.sample, Sketch.sample] at hs
  by_cases hidx : skt.sampleIdx ≥ P.numSamples
  · rw [if_pos hidx] at hs
    cases hs
    refine ⟨⟨.idle, rfl, fun _ => rfl⟩, rfl, ?_, fun _ _ => rfl, fun _ => ⟨rfl, rfl⟩, fun _ _ => rfl⟩
    exact iff_of_true (Option.some_ne_none _) (.inr hidx)
  · rw [if_neg hidx] at hs
    obtain ⟨pc, hpc, rfl⟩ := Option.map_eq_some_iff.1 hs
    refine ⟨⟨pc, hput.thr _ _, ?_⟩, hput.sampled _ _, ?_, hput.sketches _ _, hput.global _ _, hput.other _ _⟩
    · intro ρ'
      unfold afterSample at hpc
      split at hpc
      · cases hpc
        rfl
      · cases hpc
        rfl
      · obtain ⟨e, -, rfl⟩ := Option.map_eq_some_iff.1 hpc
        rfl
    · rw [hput.err]
      exact (or_iff_left hidx).symm

/-- **A sample.** The thread gives its token of root ρ for an entry of `sampled`. -/
theorem OnceInv.sample (hp : Plan r sketches progs present slot total) (h : OnceInv r sketches progs present slot total s)
    {t : Fin T} {acts : List (Act P n)} {ρ : Fin n} {skt : Sketch P} {put : St P n T → Sketch P → St P n T}
    (hput : Puts progs slot ρ put) (hs : s.sample t acts ρ skt put = some s') (hsuf : acts <:+ (s.thr t).acts)
    (hother : ∀ ρ', ρ' ≠ ρ → view ρ' acts = view ρ' (s.thr t).acts ∧ (s.thr t).pc.readyFor ρ' = 0)
    (htok : (s.thr t).tokens ρ = samples ρ acts + 1) (hmrg : merges ρ acts = merges ρ (s.thr t).acts)
    (hidx : skt.sampleIdx = min r P.numSamples)
    (hskt : r < P.numSamples → ∀ b, Sketch.InWindow P r b → skt.buckets b = total ρ b) :
    OnceInv r sketches progs present slot total s' := by
  obtain ⟨⟨pc, hthr, hpc⟩, hsampled, herr, hsketches, hcount, hglobal⟩ := sample_cases hput hs
  obtain ⟨hρ, htimes, hleft0, htok1, -⟩ := h.alone (show 0 < (s.thr t).tokens ρ by omega)
  have htimes' : times ρ s'.sampled = times ρ s.sampled + 1 := by rw [hsampled, times_cons, if_pos rfl]
  refine h.of_at hthr hsuf (fun id ρ' he => absurd he (Pc.ne_ready hpc id ρ')) (fun ρ' => ?_)
    (fun id hid => hglobal id fun he => hid ρ he.2 he.1.symm) (fun x hx => ?_) ?_
  · by_cases hne : ρ' = ρ
    · subst hne
      have hleft : s'.mergesLeft ρ' = s.mergesLeft ρ' := by
        have := mergesLeft_update hthr ρ'
        simp only [hmrg] at this
        exact Nat.add_right_cancel this
      refine ⟨?_, fun hw => ?_, fun hw => ?_, fun h0 => absurd h0 (by omega), fun _ h0 => absurd h0 (by omega),
        fun h0 => absurd h0 (by omega)⟩
      · have htokens := h.tokens ρ'
        have hsum := sum_thr (Thread.tokens ρ') hthr
        have hnew : Thread.tokens ρ' (⟨acts, pc⟩ : Thread P n) = samples ρ' acts := by rw [Thread.tokens, hpc, Nat.add_zero]
        rw [htok, hnew] at hsum
        rw [htimes', hleft, ← htokens]
        omega
      · rw [(hcount _).1, hleft]
        exact h.done ρ' hw
      · rw [(hcount _).2]
        rcases h.needed ρ' hw with hneeded | ⟨-, t', ht'⟩
        · exact .inl hneeded
        · -- the announcement is followed by a merge, but all merges for the root are over
          have hm := ((hp.shape t' ρ').suffix (view_suffix (h.suffix t'))).merge_of_length ht'
          have hle := s.merges_le_left ρ' t'
          rw [hleft0, merges] at hle
          omega
    · obtain ⟨hview, hready⟩ := hother ρ' hne
      refine (h.at ρ').frame (thr_congr (fun x => view ρ' x.acts) hthr hview)
        (thr_congr (fun x => x.pc.readyFor ρ') hthr ((hpc ρ').trans hready.symm)) ?_ (fun hw => ?_) (hsketches ρ' hne)
      · rw [hsampled, times_cons, if_neg (Ne.symm hne), Nat.add_zero]
      · exact hglobal _ fun he => hne (hp.slots ρ' ρ hw he.2 he.1)
  · rw [hsampled] at hx
    rcases List.mem_cons.1 hx with rfl | hx
    · exact ⟨hidx, hskt⟩
    · exact h.log x hx
  · rw [herr, h.err, hsampled, hidx]
    have : P.numSamples ≤ min r P.numSamples ↔ P.numSamples ≤ r := by omega
    simp only [this, ne_eq, reduceCtorEq, not_false_eq_true, and_true]
    tauto

theorem view_cons_self {ρ : Fin n} {a : Act P n} (ha : a.root = some ρ) (acts : List (Act P n)) :
    view ρ (a :: acts) = a :: view ρ acts := by rw [view_cons, if_pos ha]

theorem view_cons_ne {ρ : Fin n} {a : Act P n} (ha : a.root ≠ some ρ) (acts : List (Act P n)) :
    view ρ (a :: acts) = view ρ acts := by rw [view_cons, if_neg ha]

theorem samples_cons (ρ : Fin n) (a : Act P n) (acts : List (Act P n)) :
    samples ρ (a :: acts) = samples ρ acts + if a.root = some ρ ∧ a.isSample = true then 1 else 0 := by
  rw [samples, view_cons]
  by_cases ha : a.root = some ρ
  · rw [if_pos ha, List.countP_cons, samples]
    simp only [ha, true_and]
  · rw [if_neg ha, samples]
    simp only [ha, false_and, if_false, Nat.add_zero]

theorem merges_cons (ρ : Fin n) (a : Act P n) (acts : List (Act P n)) :
    merges ρ (a :: acts) = merges ρ acts + if a.root = some ρ ∧ a.isMerge = true then 1 else 0 := by
  rw [merges, view_cons]
  by_cases ha : a.root = some ρ
  · rw [if_pos ha, List.countP_cons, merges]
    simp only [ha, true_and]
  · rw [if_neg ha, merges]
    simp only [ha, false_and, if_false, Nat.add_zero]

/-- what the threads other than t have left for a root that t is about to sample -/
theorem OnceInv.view_nil (hp : Plan r sketches progs present slot total)
    (h : OnceInv r sketches progs present slot total s) {ρ : Fin n} (hleft : s.mergesLeft ρ = 0) {t : Fin T}
    (ht : (s.thr t).tokens ρ = 0) : view ρ (s.thr t).acts = [] := by
  refine ((hp.shape t ρ).suffix (view_suffix (h.suffix t))).eq_nil (Nat.eq_zero_of_add_eq_zero_right ht) ?_
  exact Nat.eq_zero_of_le_zero ((s.merges_le_left ρ t).trans_eq hleft)

/-- the sketch of a local sample is the whole supernode -/
theorem OnceInv.local_total (ρ : Fin n) (hp : Plan r sketches progs present slot total)
    (h : OnceInv r sketches progs present slot total s) {t : Fin T} {a : Act P n} {acts : List (Act P n)}
    {skt : Sketch P} (hthr : s.thr t = ⟨a :: acts, .idle⟩) (hroot : a.root = some ρ) (hsample : a.isSample = true)
    (hskt : a.sketch sketches = some skt) : skt.sampleIdx = min r P.numSamples ∧
      (r < P.numSamples → ∀ b, Sketch.InWindow P r b → skt.buckets b = total ρ b) := by
  have hsuf : a :: acts <:+ progs t := by simpa only [hthr] using h.suffix t
  refine ⟨hp.idx t a (hsuf.subset List.mem_cons_self) skt hskt, fun hr b hb => ?_⟩
  have hpos : 0 < samples ρ (a :: acts) := by
    rw [samples_cons, if_pos ⟨hroot, hsample⟩]
    exact Nat.succ_pos _
  have htok : 0 < (s.thr t).tokens ρ := by
    rw [hthr]
    exact Nat.add_pos_left hpos _
  obtain ⟨hρ, htimes, hleft, -, hothers⟩ := h.alone htok
  -- a root with a slot is not sampled locally
  have hwidth : ¬ 0 < width progs ρ := by
    have honce := hp.once ρ hρ
    have hle : samples ρ (a :: acts) ≤ samples ρ (progs t) := samples_le hsuf
    have hle' : samples ρ (progs t) ≤ ∑ j, samples ρ (progs j) := Threads.le_sum (fun j => samples ρ (progs j)) t
    omega
  have hparts := h.parts ρ htimes hρ hr b hb
  rw [if_neg hwidth, zero_add, Finset.sum_eq_single_of_mem t (Finset.mem_univ t) fun t' _ ht' => by
    rw [content_nil (h.view_nil hp hleft (hothers t' ht'))]
    rfl, hthr] at hparts
  have hshape := (hp.shape t ρ).suffix (view_suffix hsuf)
  rw [view_cons_self hroot] at hshape
  rw [content, view_cons_self hroot, hshape.of_sample hsample] at hparts
  simpa [hskt] using hparts

/-- the sketch of a slot whose ready test was passed is the whole supernode -/
theorem OnceInv.slot_total (hp : Plan r sketches progs present slot total)
    (h : OnceInv r sketches progs present slot total s) {t : Fin T} {id : ℕ} {ρ : Fin n}
    (hpc : (s.thr t).pc = .ready id ρ) : (s.globalMerges (slot ρ)).sketch.sampleIdx = min r P.numSamples ∧
      (r < P.numSamples → ∀ b, Sketch.InWindow P r b → (s.globalMerges (slot ρ)).sketch.buckets b = total ρ b) := by
  obtain ⟨-, hwidth⟩ := h.ready t id ρ hpc
  have htok : (s.thr t).tokens ρ = samples ρ (s.thr t).acts + 1 := by rw [Thread.tokens, hpc, Pc.readyFor, if_pos rfl]
  obtain ⟨hρ, htimes, hleft, hone, hothers⟩ := h.alone (show 0 < (s.thr t).tokens ρ by omega)
  have hdone := h.done ρ hwidth
  refine ⟨(h.slotIdx ρ hwidth htimes).2 (by omega), fun hr b hb => ?_⟩
  have hparts := h.parts ρ htimes hρ hr b hb
  have hnil : ∀ t', view ρ (s.thr t').acts = [] := by
    intro t'
    by_cases ht : t' = t
    · subst ht
      refine ((hp.shape t' ρ).suffix (view_suffix (h.suffix t'))).eq_nil ?_ ?_
      · rw [hone] at htok
        exact (Nat.succ.inj htok).symm
      · exact Nat.eq_zero_of_le_zero ((s.merges_le_left ρ t').trans_eq hleft)
    · exact h.view_nil hp hleft (hothers t' ht)
  rw [if_pos hwidth, Finset.sum_eq_zero fun t' _ => by rw [content_nil (hnil t')]; rfl, add_zero] at hparts
  exact hparts

/-- a step of thread t into its next act, for a root that the act does not concern -/
theorem OnceInv.frame_act (hp : Plan r sketches progs present slot total) (h : OnceInv r sketches progs present slot total s)
    {t : Fin T} {a : Act P n} {acts : List (Act P n)} {pc : Pc n} {ρ ρ' : Fin n} {x : GlobalMergeData P}
    (hold : s.thr t = ⟨a :: acts, .idle⟩) (hroot : a.root = some ρ) (hne : ρ' ≠ ρ) (hpc : pc.readyFor ρ' = 0)
    (hwidth : 0 < width progs ρ) :
    OnceAt r sketches progs present slot total
      { s.goto t acts pc with globalMerges := Function.update s.globalMerges (slot ρ) x } ρ' := by
  have hview : view ρ' acts = view ρ' (s.thr t).acts := by
    rw [hold, view_cons_ne]
    exact fun he => hne (Option.some.inj (he.symm.trans hroot))
  have hready : pc.readyFor ρ' = (s.thr t).pc.readyFor ρ' := by
    rw [hpc, hold]
    rfl
  exact (h.at ρ').frame (thr_congr (fun x => view ρ' x.acts) (x := ⟨acts, pc⟩) rfl hview)
    (thr_congr (fun x => x.pc.readyFor ρ') (x := ⟨acts, pc⟩) rfl hready) rfl
    (fun hw => Function.update_of_ne (fun he => hne (hp.slots ρ' ρ hw hwidth he)) _ _) rfl

/-- a thread with a merge to come for the root -/
theorem OnceInv.width_pos (h : OnceInv r sketches progs present slot total s) {t : Fin T} {ρ : Fin n}
    (hm : 0 < merges ρ (s.thr t).acts) : 0 < width progs ρ := by
  calc 0 < merges ρ (s.thr t).acts := hm
    _ ≤ merges ρ (progs t) := merges_le (h.suffix t)
    _ ≤ width progs ρ := merges_le_width progs ρ t

/-- the first thread of a supernode announces how many merges there will be -/
theorem OnceInv.setNeeded (hp : Plan r sketches progs present slot total)
    (h : OnceInv r sketches progs present slot total s) {t : Fin T} {id k : ℕ} {ρ : Fin n} {acts : List (Act P n)}
    (hold : s.thr t = ⟨.setNeeded id ρ k :: acts, .idle⟩) :
    OnceInv r sketches progs present slot total { s.goto t acts .idle with
      globalMerges := Function.update s.globalMerges id { s.globalMerges id with numMergeNeeded := k } } := by
  have hshape := (hp.shape t ρ).suffix (view_suffix (h.suffix t))
  rw [hold, view_cons_self rfl] at hshape
  obtain ⟨rfl, rfl, hmerge⟩ := hshape.of_setNeeded
  have hpos : 0 < merges ρ (s.thr t).acts := by
    rw [hold, merges_cons, merges, hmerge]
    exact Nat.add_pos_left one_pos _
  have hwidth := h.width_pos hpos
  let s' : St P n T := { s.goto t acts .idle with
    globalMerges := Function.update s.globalMerges (slot ρ) { s.globalMerges (slot ρ) with numMergeNeeded := width progs ρ } }
  have hthr : s'.thr = Function.update s.thr t ⟨acts, .idle⟩ := rfl
  have hself : s'.globalMerges (slot ρ) = { s.globalMerges (slot ρ) with numMergeNeeded := width progs ρ } :=
    Function.update_self ..
  have hsuf : acts <:+ (s.thr t).acts := by
    rw [hold]
    exact List.suffix_cons _ _
  show OnceInv r sketches progs present slot total s'
  refine h.of_at hthr hsuf (fun id ρ' he => by cases he) (fun ρ' => ?_)
    (fun id hid => Function.update_of_ne (fun he => hid ρ hwidth he.symm) _ _) h.log h.err
  by_cases hne : ρ' = ρ
  · subst hne
    have hleft : s'.mergesLeft ρ' = s.mergesLeft ρ' := by
      have := mergesLeft_update hthr ρ'
      rw [hold, merges_cons] at this
      simp only [Act.isMerge, Bool.false_eq_true, and_false, if_false, Nat.add_zero] at this
      exact Nat.add_right_cancel this
    have htok : ∑ j, (s'.thr j).tokens ρ' = ∑ j, (s.thr j).tokens ρ' := by
      have := sum_thr (Thread.tokens ρ') hthr
      simp only [hold, Thread.tokens, samples_cons, Act.isSample, Bool.false_eq_true, and_false, if_false, Nat.add_zero] at this
      exact Nat.add_right_cancel this
    have hcont : ∀ b, ∑ j, content sketches ρ' (s'.thr j).acts b = ∑ j, content sketches ρ' (s.thr j).acts b := by
      intro b
      have := sum_thr (fun x => content sketches ρ' x.acts b) hthr
      simp only [hold] at this
      rw [content, content, view_cons_self rfl, List.map_cons, List.sum_cons] at this
      simpa [Act.sketch] using this
    refine ⟨?_, fun hw => ?_, fun _ => ?_, fun h0 hρ hr b hb => ?_, fun hw h0 => ?_, h.vertex ρ'⟩
    · rw [htok, hleft]
      exact h.tokens ρ'
    · rw [hself, hleft]
      exact h.done ρ' hw
    · exact .inl (by rw [hself])
    · rw [hcont, hself]
      exact h.parts ρ' h0 hρ hr b hb
    · rw [hself]
      exact h.slotIdx ρ' hw h0
  · exact h.frame_act hp hold rfl hne rfl hwidth

/-- **The ready test** passes at the last merge for the root, and only there. -/
theorem OnceInv.ready_iff (hp : Plan r sketches progs present slot total)
    (h : OnceInv r sketches progs present slot total s) {t : Fin T} {ρ : Fin n} {skt : Sketch P} {acts : List (Act P n)}
    (hold : s.thr t = ⟨.mergeGlobal (slot ρ) ρ skt :: acts, .idle⟩) (hnil : view ρ acts = []) :
    0 < width progs ρ ∧ 0 < s.mergesLeft ρ ∧
      (((s.globalMerges (slot ρ)).merge r skt).ready = true ↔ s.mergesLeft ρ = 1) := by
  have hone : merges ρ (s.thr t).acts = 1 := by
    rw [hold, merges_cons, merges, hnil, List.countP_nil, Nat.zero_add]
    exact if_pos ⟨rfl, rfl⟩
  have hwidth := h.width_pos (hone ▸ one_pos)
  have hle := s.merges_le_left ρ t
  have hdone := h.done ρ hwidth
  refine ⟨hwidth, by omega, ?_⟩
  simp only [GlobalMergeData.ready, GlobalMergeData.merge, ge_iff_le, decide_eq_true_eq]
  rcases h.needed ρ hwidth with hneeded | ⟨hneeded, t', ht'⟩
  · omega
  · -- the thread that has not announced the number yet has its own merge to come
    have hbound := hp.bounded ρ
    have hne : t' ≠ t := by
      intro he
      rw [he, hold, view_cons_self rfl, hnil] at ht'
      exact absurd ht' (lt_irrefl 1)
    have hm : merges ρ (s.thr t').acts = 1 := ((hp.shape t' ρ).suffix (view_suffix (h.suffix t'))).merge_of_length ht'
    have htwo : merges ρ (s.thr t').acts + merges ρ (s.thr t).acts ≤ s.mergesLeft ρ :=
      Threads.add_le_sum (fun j => merges ρ (s.thr j).acts) hne
    omega

/-- a part of a supernode is merged into its slot -/
theorem OnceInv.mergeGlobal (hp : Plan r sketches progs present slot total)
    (h : OnceInv r sketches progs present slot total s) {t : Fin T} {id : ℕ} {ρ : Fin n} {skt : Sketch P}
    {acts : List (Act P n)} (hold : s.thr t = ⟨.mergeGlobal id ρ skt :: acts, .idle⟩) :
    OnceInv r sketches progs present slot total
      { s.goto t acts (if ((s.globalMerges id).merge r skt).ready then .ready id ρ else .idle) with
        globalMerges := Function.update s.globalMerges id ((s.globalMerges id).merge r skt) } := by
  have hshape := (hp.shape t ρ).suffix (view_suffix (h.suffix t))
  rw [hold, view_cons_self rfl] at hshape
  obtain ⟨rfl, hnil⟩ := hshape.of_mergeGlobal
  obtain ⟨hwidth, hpos, hready⟩ := h.ready_iff hp hold hnil
  obtain ⟨pc, hpc⟩ : ∃ pc : Pc n, pc = if ((s.globalMerges (slot ρ)).merge r skt).ready then .ready (slot ρ) ρ else .idle :=
    ⟨_, rfl⟩
  rw [← hpc]
  have hreadyFor : ∀ ρ', pc.readyFor ρ' = if ρ' = ρ ∧ s.mergesLeft ρ = 1 then 1 else 0 := by
    intro ρ'
    rw [hpc]
    by_cases hr : ((s.globalMerges (slot ρ)).merge r skt).ready = true
    · rw [if_pos hr, Pc.readyFor]
      exact if_congr (by rw [eq_comm, and_iff_left (hready.1 hr)]) rfl rfl
    · rw [if_neg hr, if_neg fun hc => hr (hready.2 hc.2)]
      rfl
  let s' : St P n T := { s.goto t acts pc with
    globalMerges := Function.update s.globalMerges (slot ρ) ((s.globalMerges (slot ρ)).merge r skt) }
  have hthr : s'.thr = Function.update s.thr t ⟨acts, pc⟩ := rfl
  have hself : s'.globalMerges (slot ρ) = (s.globalMerges (slot ρ)).merge r skt := Function.update_self ..
  have hsuf : acts <:+ (s.thr t).acts := by
    rw [hold]
    exact List.suffix_cons _ _
  show OnceInv r sketches progs present slot total s'
  refine h.of_at hthr hsuf (fun id ρ' he => ?_) (fun ρ' => ?_)
    (fun id hid => Function.update_of_ne (fun he => hid ρ hwidth he.symm) _ _) h.log h.err
  · simp only [hpc] at he
    split_ifs at he
    cases he
    exact ⟨rfl, hwidth⟩
  by_cases hne : ρ' = ρ
  · subst hne
    have hleft : s'.mergesLeft ρ' + 1 = s.mergesLeft ρ' := by
      have := mergesLeft_update hthr ρ'
      rw [hold, merges_cons] at this
      simp only [merges, hnil, List.countP_nil, Act.root, Act.isMerge, and_self, if_true, Nat.zero_add, Nat.add_zero] at this
      exact this
    have htok : ∑ j, (s'.thr j).tokens ρ' = ∑ j, (s.thr j).tokens ρ' + if s.mergesLeft ρ' = 1 then 1 else 0 := by
      have hsum := sum_thr (Thread.tokens ρ') hthr
      simp only [hold, Thread.tokens, samples_cons, Act.isSample, Bool.false_eq_true, and_false, if_false, Nat.add_zero,
        hreadyFor, true_and] at hsum
      have hidle : (Pc.idle : Pc n).readyFor ρ' = 0 := rfl
      simp only [Thread.tokens] at hsum ⊢
      omega
    refine ⟨?_, fun hw => ?_, fun hw => ?_, fun h0 hρ hr b hb => ?_, fun hw h0 => ?_, h.vertex ρ'⟩
    · have htokens := h.tokens ρ'
      rw [htok, ← htokens]
      simp only [s', St.goto] at hleft ⊢
      split_ifs <;> omega
    · have hdone := h.done ρ' hw
      rw [hself]
      simp only [GlobalMergeData.merge]
      omega
    · rw [hself]
      refine (h.needed ρ' hw).imp_right fun hpend => ⟨hpend.1, ?_⟩
      obtain ⟨-, t', ht'⟩ := hpend
      have hne : t' ≠ t := by
        intro he
        rw [he, hold, view_cons_self rfl, hnil] at ht'
        exact absurd ht' (lt_irrefl 1)
      exact ⟨t', by rwa [hthr, Function.update_of_ne hne]⟩
    · have hparts := h.parts ρ' h0 hρ hr b hb
      have hcont := sum_thr (fun x => content sketches ρ' x.acts b) hthr
      simp only [hold, content_nil hnil] at hcont
      rw [content, view_cons_self rfl, hnil] at hcont
      simp only [List.map_cons, List.map_nil, List.sum_cons, List.sum_nil, add_zero, Act.sketch, Option.elim_some,
        Pi.zero_apply] at hcont
      rw [if_pos hwidth, hself]
      rw [if_pos hwidth, ← hcont] at hparts
      simp only [GlobalMergeData.merge]
      rw [Sketch.rangeMerge_buckets _ _ hr hb, ← hparts]
      abel
    · have hidx := h.slotIdx ρ' hw h0
      rw [hself]
      have := Sketch.rangeMerge_sampleIdx_le (s.globalMerges (slot ρ')).sketch skt hidx.1
      exact ⟨this.le, fun _ => this⟩
  · exact h.frame_act hp hold rfl hne (by rw [hreadyFor, if_neg fun hc => hne hc.1]) hwidth

theorem OnceInv.actStep (hp : Plan r sketches progs present slot total)
    (h : OnceInv r sketches progs present slot total s) {t : Fin T} {a : Act P n} {acts : List (Act P n)}
    (hold : s.thr t = ⟨a :: acts, .idle⟩) (hs : actStep r s t acts a = some s') :
    OnceInv r sketches progs present slot total s' := by
  have hsuf : acts <:+ (s.thr t).acts := by
    rw [hold]
    exact List.suffix_cons a acts
  have hother : ∀ ρ, a.root ≠ some ρ → view ρ acts = view ρ (s.thr t).acts ∧ (s.thr t).pc.readyFor ρ = 0 := by
    intro ρ hne
    rw [hold, view_cons_ne hne]
    exact ⟨rfl, rfl⟩
  cases a with
  | sampleVertex v =>
    have htok : (s.thr t).tokens v = samples v acts + 1 := by
      rw [hold, Thread.tokens, samples_cons, if_pos ⟨rfl, rfl⟩]
      rfl
    have hvertex := h.vertex v (h.alone (show 0 < (s.thr t).tokens v by omega)).2.1
    obtain ⟨hidx, htotal⟩ := h.local_total v hp hold rfl rfl rfl
    rw [← hvertex] at hidx htotal
    refine h.sample hp (puts_vertex v) hs hsuf (fun ρ' hne => hother ρ' fun he => hne (Option.some.inj he).symm) htok ?_
      hidx htotal
    rw [hold, merges_cons, if_neg (fun hc => by cases hc.2), Nat.add_zero]
  | sampleLocal root skt =>
    have htok : (s.thr t).tokens root = samples root acts + 1 := by
      rw [hold, Thread.tokens, samples_cons, if_pos ⟨rfl, rfl⟩]
      rfl
    obtain ⟨hidx, htotal⟩ := h.local_total root hp hold rfl rfl rfl
    refine h.sample hp (puts_nothing root) hs hsuf (fun ρ' hne => hother ρ' fun he => hne (Option.some.inj he).symm) htok ?_
      hidx htotal
    rw [hold, merges_cons, if_neg (fun hc => by cases hc.2), Nat.add_zero]
  | setNeeded id root k =>
    cases hs
    exact h.setNeeded hp hold
  | mergeGlobal id root skt =>
    cases hs
    exact h.mergeGlobal hp hold
  | undefined => cases hs

theorem OnceInv.step (hp : Plan r sketches progs present slot total)
    (h : OnceInv r sketches progs present slot total s) {priority : Fin n → ℕ} {l : Fin T × Side}
    (hs : step priority r s l = some s') : OnceInv r sketches progs present slot total s' := by
  unfold Boruvka.step at hs
  split at hs
  next hold => cases hs
  next a acts hold => exact h.actStep hp hold hs
  next acts id root hold =>
    have hpc : (s.thr l.1).pc = .ready id root := by rw [hold]
    obtain ⟨rfl, hwidth⟩ := h.ready _ _ _ hpc
    obtain ⟨hidx, htotal⟩ := h.slot_total hp hpc
    refine h.sample hp (puts_global hwidth) hs ?_ (fun ρ' hne => ?_) ?_ ?_ hidx htotal
    · rw [hold]
    · rw [hold]
      exact ⟨rfl, if_neg (Ne.symm hne)⟩
    · rw [hold, Thread.tokens, Pc.readyFor, if_pos rfl]
    · rw [hold]
  next acts e m hold =>
    split at hs
    next parent' m' _ =>
      cases hs
      exact h.silent (.merge e m') (by rw [hold]; rfl) (fun _ => rfl) (fun _ => by rw [hold]; rfl) rfl rfl rfl rfl
    next parent' ret _ =>
      cases hs
      have hpc : ∀ ρ, (if ret.merged then Pc.insert e else Pc.idle : Pc n).readyFor ρ = 0 := by
        intro ρ
        split_ifs <;> rfl
      exact h.silent (if ret.merged then .insert e else .idle) (by rw [hold]; rfl) hpc
        (fun _ => by rw [hold]; rfl) rfl rfl rfl rfl
  next acts e hold =>
    cases hs
    exact h.silent .mark (by rw [hold]; rfl) (fun _ => rfl) (fun _ => by rw [hold]; rfl) rfl rfl rfl rfl
  next acts hold =>
    cases hs
    exact h.silent .idle (by rw [hold]; rfl) (fun _ => rfl) (fun _ => by rw [hold]; rfl) rfl rfl rfl rfl

/-- **The invariant of a round**, in every state that a run reaches -/
theorem run_once (hp : Plan r sketches progs present slot total) {priority : Fin n → ℕ} {parent : Fin n → Fin n}
    {forest : Fin n → Finset (Fin n)} {ls : List (Fin T × Side)}
    (hs : exec (Boruvka.step priority r) (start sketches parent forest progs) ls = some s) :
    OnceInv r sketches progs present slot total s :=
  exec_invariant _ (fun _ _ _ h hs => h.step hp hs) (onceInv_start hp parent forest) hs

/-! ## What a round does -/

/-- once a supernode has been sampled, no thread has anything left for it -/
theorem OnceInv.spent (hp : Plan r sketches progs present slot total)
    (h : OnceInv r sketches progs present slot total s) {x : Fin n × Sketch P} (hx : x ∈ s.sampled) :
    present x.1 ∧ times x.1 s.sampled = 1 ∧ ∀ t, view x.1 (s.thr t).acts = [] := by
  have hpos : 0 < times x.1 s.sampled := List.countP_pos_iff.2 ⟨x, hx, decide_eq_true rfl⟩
  have htok := h.tokens x.1
  have hpresent : present x.1 := by
    by_contra hne
    rw [if_neg hne] at htok
    omega
  rw [if_pos hpresent] at htok
  refine ⟨hpresent, by omega, fun t => h.view_nil hp (by omega) ?_⟩
  have hle : (s.thr t).tokens x.1 ≤ ∑ j, (s.thr j).tokens x.1 := Threads.le_sum (fun j => (s.thr j).tokens x.1) t
  omega

theorem OnceInv.times_le (h : OnceInv r sketches progs present slot total s) (ρ : Fin n) : times ρ s.sampled ≤ 1 := by
  have := h.tokens ρ
  split_ifs at this <;> omega

/-- `num_merge_done` never gets ahead of `num_merge_needed` -/
theorem OnceInv.done_le (hp : Plan r sketches progs present slot total)
    (h : OnceInv r sketches progs present slot total s) (id : ℕ) :
    (s.globalMerges id).numMergeDone ≤ (s.globalMerges id).numMergeNeeded := by
  by_cases hid : ∃ ρ, 0 < width progs ρ ∧ slot ρ = id
  · obtain ⟨ρ, hρ, rfl⟩ := hid
    have hdone := h.done ρ hρ
    have hbound := hp.bounded ρ
    rcases h.needed ρ hρ with hneeded | ⟨hneeded, -⟩ <;> omega
  · rw [h.unused id fun ρ hρ he => hid ⟨ρ, hρ, he⟩]
    exact Nat.zero_le _

/-- when the round is over, every supernode has been sampled -/
theorem OnceInv.all (h : OnceInv r sketches progs present slot total s) (hd : Done s) {ρ : Fin n} (hρ : present ρ) :
    times ρ s.sampled = 1 := by
  have htok : ∀ t, (s.thr t).tokens ρ = 0 := fun t => by
    rw [Thread.tokens, (hd t).1, (hd t).2]
    rfl
  have hleft : s.mergesLeft ρ = 0 := Finset.sum_eq_zero fun t _ => by
    rw [(hd t).1]
    rfl
  have := h.tokens ρ
  rw [if_pos hρ, hleft] at this
  simp only [htok, Finset.sum_const_zero] at this
  omega

omit [DecidablePred present] in
/-- one slot, one root -/
theorem Plan.slot_unique (hp : Plan r sketches progs present slot total) {t t' : Fin T} {a a' : Act P n}
    (ha : a ∈ progs t) (ha' : a' ∈ progs t') {id : ℕ} (hid : id ∈ a.globalId) (hid' : id ∈ a'.globalId) :
    a.root = a'.root := by
  have hroot : ∀ (t : Fin T) (a : Act P n), a ∈ progs t → id ∈ a.globalId →
      ∃ ρ, a.root = some ρ ∧ id = slot ρ ∧ 0 < width progs ρ := by
    intro t a ha hid
    have hrho : ∃ ρ, a.root = some ρ := by
      cases a with
      | setNeeded g root k => exact ⟨root, rfl⟩
      | mergeGlobal g root skt => exact ⟨root, rfl⟩
      | sampleVertex | sampleLocal | undefined => cases hid
    obtain ⟨ρ, hρ⟩ := hrho
    have hmem : a ∈ view ρ (progs t) := List.mem_filter.2 ⟨ha, decide_eq_true hρ⟩
    have hshape := hp.shape t ρ
    have hmerge : id = slot ρ ∧ 0 < merges ρ (progs t) := by
      rw [merges]
      cases hview : view ρ (progs t) with
      | nil =>
        rw [hview] at hmem
        cases hmem
      | cons b l =>
        rw [hview] at hshape hmem
        cases hshape with
        | vertex | localSketch =>
          rw [List.mem_singleton] at hmem
          subst hmem
          cases hid
        | part skt =>
          rw [List.mem_singleton] at hmem
          subst hmem
          cases hid
          exact ⟨rfl, one_pos⟩
        | firstPart skt =>
          rcases List.mem_pair.1 hmem with rfl | rfl <;> cases hid <;> exact ⟨rfl, one_pos⟩
    exact ⟨ρ, hρ, hmerge.1, hmerge.2.trans_le (merges_le_width progs ρ t)⟩
  obtain ⟨ρ, hρ, he, hw⟩ := hroot t a ha hid
  obtain ⟨ρ', hρ', he', hw'⟩ := hroot t' a' ha' hid'
  rw [hρ, hρ', hp.slots ρ ρ' hw hw' (he.symm.trans he')]

/-! ## No thread has to wait -/

/-- the sketch that thread t is about to sample -/
def St.about (s : St P n T) (t : Fin T) : Option (Sketch P) :=
  match s.thr t with
  | ⟨.sampleVertex v :: _, .idle⟩ => some (s.sketches v)
  | ⟨.sampleLocal _ skt :: _, .idle⟩ => some skt
  | ⟨_, .ready globalId _⟩ => some (s.globalMerges globalId).sketch
  | _ => none

/-- that is the sketch of a supernode -/
theorem OnceInv.about_total (hp : Plan r sketches progs present slot total)
    (h : OnceInv r sketches progs present slot total s) {t : Fin T} {skt : Sketch P} (hskt : skt ∈ s.about t) :
    ∃ ρ, present ρ ∧ skt.sampleIdx = min r P.numSamples ∧
      (r < P.numSamples → ∀ b, Sketch.InWindow P r b → skt.buckets b = total ρ b) := by
  have htokens : ∀ {a acts ρ}, s.thr t = ⟨a :: acts, .idle⟩ → a.root = some ρ → a.isSample = true → 0 < (s.thr t).tokens ρ := by
    intro a acts ρ hold hroot hsample
    rw [hold, Thread.tokens, samples_cons, if_pos ⟨hroot, hsample⟩]
    exact Nat.succ_pos _
  unfold St.about at hskt
  split at hskt
  next v acts hold =>
    cases hskt
    obtain ⟨hρ, htimes, -⟩ := h.alone (htokens hold rfl rfl)
    rw [h.vertex v htimes]
    exact ⟨v, hρ, h.local_total v hp hold rfl rfl rfl⟩
  next root skt' acts hold =>
    cases hskt
    exact ⟨root, (h.alone (htokens hold rfl rfl)).1, h.local_total root hp hold rfl rfl rfl⟩
  next acts id root hold =>
    cases hskt
    have hpc : (s.thr t).pc = .ready id root := by rw [hold]
    obtain ⟨rfl, -⟩ := h.ready t id root hpc
    have hpos : 0 < (s.thr t).tokens root := by
      rw [Thread.tokens, hpc, Pc.readyFor, if_pos rfl]
      exact Nat.succ_pos _
    exact ⟨root, (h.alone hpos).1, h.slot_total hp hpc⟩
  next => cases hskt

/-- if the next sample of this sketch is good, it names two vertices -/
def Decodes (n : ℕ) (skt : Sketch P) : Prop :=
  ∀ skt' smp, skt.sample = .ok (skt', smp) → smp.result = .good → (decodeEdge n smp.idx).isSome

theorem sample_enabled {t : Fin T} {acts : List (Act P n)} {ρ : Fin n} {skt : Sketch P} {put : St P n T → Sketch P → St P n T}
    (h : Decodes n skt) : ∃ s', s.sample t acts ρ skt put = some s' := by
  unfold St.sample
  cases hsample : skt.sample with
  | error e => exact ⟨_, rfl⟩
  | ok x =>
    have hafter : ∃ pc, afterSample n x.2 = some pc := by
      unfold afterSample
      cases hres : x.2.result with
      | fail => exact ⟨.mark, rfl⟩
      | zero => exact ⟨.idle, rfl⟩
      | good =>
        obtain ⟨e, he⟩ := Option.isSome_iff_exists.1 (h x.1 x.2 hsample hres)
        exact ⟨.merge e (.loop e.1 e.2), by rw [he]; rfl⟩
    obtain ⟨pc, hpc⟩ := hafter
    simp only [hpc, Option.map_some]
    exact ⟨_, rfl⟩

/-- **A thread that is not finished can go on**, unless a good sample names something else than two vertices. -/
theorem enabled {t : Fin T} (hsafe : Act.undefined ∉ (s.thr t).acts) (hdec : ∀ skt ∈ s.about t, Decodes n skt)
    (ht : ¬ ((s.thr t).acts = [] ∧ (s.thr t).pc = .idle)) (priority : Fin n → ℕ) (r : ℕ) (o : Side) :
    ∃ s', Boruvka.step priority r s (t, o) = some s' := by
  rcases hold : s.thr t with ⟨acts, pc⟩
  rw [hold] at ht hsafe
  cases pc with
  | idle =>
    cases acts with
    | nil => exact absurd ⟨rfl, rfl⟩ ht
    | cons a acts =>
      simp only [St.about, hold] at hdec
      simp only [Boruvka.step, hold]
      cases a with
      | sampleVertex v => exact sample_enabled (hdec _ rfl)
      | sampleLocal root skt =>
        show ∃ s', s.sample t acts root skt (fun s _ => s) = some s'
        exact sample_enabled (hdec _ rfl)
      | setNeeded id root k => exact ⟨_, rfl⟩
      | mergeGlobal id root skt => exact ⟨_, rfl⟩
      | undefined => exact absurd List.mem_cons_self hsafe
  | ready id root =>
    simp only [St.about, hold] at hdec
    simp only [Boruvka.step, hold]
    exact sample_enabled (hdec _ rfl)
  | merge e m =>
    simp only [Boruvka.step, hold]
    rcases m.step priority s.parent o with ⟨parent', m' | ret⟩ <;> exact ⟨_, rfl⟩
  | insert e =>
    simp only [Boruvka.step, hold]
    exact ⟨_, rfl⟩
  | mark =>
    simp only [Boruvka.step, hold]
    exact ⟨_, rfl⟩

end

/-! ## The later rounds -/

section laterRounds

variable {mergeInstr : Fin n → MergeInstr n} {r : ℕ}

/-- the roots of the merge instructions -/
theorem Grouped.present_iff (hg : Grouped mergeInstr) (ρ : Fin n) :
    lo mergeInstr ρ < hi mergeInstr ρ ↔ ∃ i, (mergeInstr i).root = ρ := by
  constructor
  · intro h
    have hle := hi_le mergeInstr ρ
    exact ⟨⟨lo mergeInstr ρ, by omega⟩, (hg.mem_group _).2 ⟨le_rfl, h⟩⟩
  · intro h
    obtain ⟨i, hi⟩ := h
    have hmem := (hg.mem_group i).1 hi
    omega

/-- **Each supernode is sampled exactly once.** At any time of round r, no root has been sampled twice; a root that was
sampled is the root of an instruction, its sketch had sample index r and, in the deterministic bucket and in those of
sample r, the sum over all its children, and no thread has anything left to do for it. A slot serves one root, and
`num_merge_done` is at most `num_merge_needed`. When the round is over, every root has been sampled; and until then
every thread that is not finished can go on, if the sample it is about to take, when it is good, names two vertices. -/
theorem exactly_once {sketches : Fin n → Sketch P} {parent : Fin n → Fin n} {forest : Fin n → Finset (Fin n)}
    {priority : Fin n → ℕ} {ls : List (Fin T × Side)} {s : St P n T} (hr : r < P.numSamples) (hn : n < 2 ^ 32) (hT : 0 < T)
    (hTn : T ≤ n) (hg : Grouped mergeInstr)
    (hs : exec (step priority r) (start sketches parent forest fun t : Fin T => threadActs mergeInstr sketches r T t) ls =
      some s) :
    (∀ ρ, times ρ s.sampled ≤ 1) ∧
      (∀ x ∈ s.sampled, (∃ i, (mergeInstr i).root = x.1) ∧ x.2.sampleIdx = r ∧
        (∀ b, Sketch.InWindow P r b → x.2.buckets b = supernode mergeInstr sketches x.1 b) ∧
        ∀ t, ∀ a ∈ (s.thr t).acts, a.root ≠ some x.1) ∧
      (∀ (t t' : Fin T), ∀ a ∈ threadActs mergeInstr sketches r T t, ∀ a' ∈ threadActs mergeInstr sketches r T t',
        ∀ id ∈ a.globalId, id ∈ a'.globalId → a.root = a'.root) ∧
      (∀ id, (s.globalMerges id).numMergeDone ≤ (s.globalMerges id).numMergeNeeded) ∧
      (Done s → ∀ i, times (mergeInstr i).root s.sampled = 1) ∧
      ∀ t, ¬ ((s.thr t).acts = [] ∧ (s.thr t).pc = .idle) → (∀ skt ∈ s.about t, Decodes n skt) →
        ∀ o, ∃ s', step priority r s (t, o) = some s' := by
  have hp : Plan r sketches (fun t : Fin T => threadActs mergeInstr sketches r T t) _ _ _ :=
    plan_threadActs sketches r hg hn hTn hT
  have h := run_once hp hs
  refine ⟨h.times_le, fun x hx => ?_, fun t t' a ha a' ha' id hid hid' => hp.slot_unique ha ha' hid hid', h.done_le hp,
    fun hd i => ?_, fun t ht hdec o => ?_⟩
  · obtain ⟨hpresent, -, hnil⟩ := h.spent hp hx
    obtain ⟨hidx, hbuckets⟩ := h.log x hx
    refine ⟨(hg.present_iff x.1).1 hpresent, hidx.trans (min_eq_left hr.le), hbuckets hr, fun t a ha hroot => ?_⟩
    have hmem : a ∈ view x.1 (s.thr t).acts := List.mem_filter.2 ⟨ha, decide_eq_true hroot⟩
    rw [hnil t] at hmem
    cases hmem
  · exact h.all hd ((hg.present_iff _).2 ⟨i, rfl⟩)
  · exact enabled (fun hmem => hp.safe t ((h.suffix t).subset hmem)) hdec ht priority r o

/-- two vertices in one component, each in the segment of its own thread -/
def oneGroup (i : Fin 2) : MergeInstr 2 := ⟨Threads.fst, i⟩

/-- a sample of one column with one bucket; no checksum fits but that of nothing -/
def oneBucket : Params := ⟨fun _ _ => 0, 0, 2, 1, 1, false⟩

/-- the second thread merges before the first one has announced that there are two merges -/
theorem exactly_once_two : ∃ s, exec (step (fun u : Fin 2 => u.val) 1)
    (start (fun _ => .empty oneBucket) id (fun _ => ∅) fun t : Fin 2 => threadActs oneGroup (fun _ => .empty oneBucket) 1 2 t)
    [(Threads.snd, .left), (Threads.fst, .left), (Threads.fst, .left), (Threads.fst, .left)] = some s ∧ Done s ∧
    times Threads.fst s.sampled = 1 := by
  have hrun : ∃ s, exec (step (fun u : Fin 2 => u.val) 1)
      (start (fun _ => .empty oneBucket) id (fun _ => ∅) fun t : Fin 2 => threadActs oneGroup (fun _ => .empty oneBucket) 1 2 t)
      [(Threads.snd, .left), (Threads.fst, .left), (Threads.fst, .left), (Threads.fst, .left)] = some s ∧ Done s :=
    ⟨_, rfl, (Fin.forall_fin_two).2 ⟨⟨rfl, rfl⟩, ⟨rfl, rfl⟩⟩⟩
  obtain ⟨s, hs, hd⟩ := hrun
  have hg : Grouped oneGroup := ⟨Function.bijective_id, fun _ _ _ => le_rfl⟩
  exact ⟨s, hs, hd, (exactly_once (by decide) (by norm_num) (by norm_num) le_rfl hg hs).2.2.2.2.1 hd Threads.fst⟩

end laterRounds

end GraphStreamingCC.Boruvka
