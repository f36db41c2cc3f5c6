/-
A Boruvka round and the creation of the merge instructions end under every schedule.

Both are machines whose threads have finitely many things to do, each of them a call of the union-find with something
before or behind it. `Thread.weight` and `Create.rank` price what is left by the weights of the calls in progress
(`Dsu.Progress`): every step lowers them, but for a spurious failure of a compare-exchange. The calls keep what they
know of the array (`DsuInv`, `Create.FindsClimb`), since every write of another thread only makes the forest grow.
-/
import GraphStreamingCC.Boruvka.Grouping
import GraphStreamingCC.Dsu.Progress

namespace GraphStreamingCC.Boruvka

open Dsu ParentForest

variable {P : Params} {n T : ℕ}

/-! ## A round -/

section round

variable {priority : Fin n → ℕ} {r : ℕ} {s s' : St P n T}

def Pc.weight (rk : Fin n → ℕ ×ₗ (Fin n)ᵒᵈ) : Pc n → ℕ
  | .idle => 0
  | .mark => 1
  | .insert _ => 2
  | .merge _ m => m.weight rk + 2
  | .ready .. => mergeBound n + 3

/-- every act left may lead to a sample with a merge -/
def Thread.weight (rk : Fin n → ℕ ×ₗ (Fin n)ᵒᵈ) (x : Thread P n) : ℕ := x.acts.length * (mergeBound n + 4) + x.pc.weight rk

/-- the union-find under the calls of `merge` -/
structure DsuInv (priority : Fin n → ℕ) (s : St P n T) : Prop where
  ord : Ordered (rank priority) s.parent
  calls : ∀ t e m, (s.thr t).pc = .merge e m → m.Inv priority s.parent e.1 e.2 ∧ m.Climbs (rank priority) s.parent

/-- a statement that begins no call, or only begins one -/
def Pc.Begins : Pc n → Prop
  | .merge e m => m = .loop e.1 e.2
  | .idle | .ready .. | .insert _ | .mark => True

theorem afterSample_begins {smp : SketchSample} {pc : Pc n} (h : afterSample n smp = some pc) (rk : Fin n → ℕ ×ₗ (Fin n)ᵒᵈ) :
    pc.Begins ∧ pc.weight rk ≤ mergeBound n + 2 := by
  unfold afterSample at h
  split at h
  · cases h
    exact ⟨trivial, Nat.le_add_left 1 _⟩
  · cases h
    exact ⟨trivial, Nat.zero_le _⟩
  · obtain ⟨e, -, rfl⟩ := Option.map_eq_some_iff.1 h
    exact ⟨rfl, Nat.add_le_add_right (MergePc.weight_start_le rk e.1 e.2) 2⟩

/-- a sample of thread t, as far as the threads and the union-find go -/
theorem sample_begins {t : Fin T} {acts : List (Act P n)} {ρ : Fin n} {skt : Sketch P} (put : St P n T → Sketch P → St P n T)
    (hthr : ∀ s skt, (put s skt).thr = s.thr) (hparent : ∀ s skt, (put s skt).parent = s.parent)
    (hs : s.sample t acts ρ skt put = some s') (rk : Fin n → ℕ ×ₗ (Fin n)ᵒᵈ) :
    ∃ pc, s'.thr = Function.update s.thr t ⟨acts, pc⟩ ∧ s'.parent = s.parent ∧ pc.Begins ∧ pc.weight rk ≤ mergeBound n + 2 := by
  unfold St.sample at hs
  split at hs
  · cases hs
    exact ⟨.idle, rfl, rfl, trivial, Nat.zero_le _⟩
  · obtain ⟨pc, hpc, rfl⟩ := Option.map_eq_some_iff.1 hs
    exact ⟨pc, hthr _ _, hparent _ _, afterSample_begins hpc rk⟩

/-- what a step is to the union-find: no access, and the thread has less to do; or an operation of a call of `merge` -/
theorem step_cases {t : Fin T} {o : Side} (hs : step priority r s (t, o) = some s') : ∃ acts pc,
    s'.thr = Function.update s.thr t ⟨acts, pc⟩ ∧
      (s'.parent = s.parent ∧ pc.Begins ∧ Thread.weight (rank priority) ⟨acts, pc⟩ < (s.thr t).weight (rank priority) ∨
      ∃ e m, s.thr t = ⟨acts, .merge e m⟩ ∧ s'.parent = (m.step priority s.parent o).1 ∧
        pc = match (m.step priority s.parent o).2 with
          | .inl m' => .merge e m'
          | .inr ret => if ret.merged then .insert e else .idle) := by
  have hact : ∀ {a : Act P n} {acts : List (Act P n)} {pc : Pc n}, s.thr t = ⟨a :: acts, .idle⟩ →
      pc.weight (rank priority) ≤ mergeBound n + 3 →
      Thread.weight (rank priority) ⟨acts, pc⟩ < (s.thr t).weight (rank priority) := by
    intro a acts pc hold hpc
    calc Thread.weight (rank priority) ⟨acts, pc⟩ ≤ acts.length * (mergeBound n + 4) + (mergeBound n + 3) :=
          Nat.add_le_add_left hpc _
      _ < (acts.length + 1) * (mergeBound n + 4) := by rw [Nat.succ_mul]; omega
      _ = (s.thr t).weight (rank priority) := by rw [hold]; rfl
  unfold step at hs
  split at hs
  next hold => cases hs
  next a acts hold =>
    cases a with
    | sampleVertex v =>
      obtain ⟨pc, hthr, hparent, hb, hw⟩ := sample_begins (St.putVertex v) (fun _ _ => rfl) (fun _ _ => rfl) hs (rank priority)
      exact ⟨acts, pc, hthr, .inl ⟨hparent, hb, hact hold (hw.trans (Nat.le_succ _))⟩⟩
    | sampleLocal root skt =>
      obtain ⟨pc, hthr, hparent, hb, hw⟩ := sample_begins (fun s _ => s) (fun _ _ => rfl) (fun _ _ => rfl) hs (rank priority)
      exact ⟨acts, pc, hthr, .inl ⟨hparent, hb, hact hold (hw.trans (Nat.le_succ _))⟩⟩
    | setNeeded id root k =>
      cases hs
      exact ⟨acts, .idle, rfl, .inl ⟨rfl, trivial, hact hold (Nat.zero_le _)⟩⟩
    | mergeGlobal id root skt =>
      cases hs
      refine ⟨acts, _, rfl, .inl ⟨rfl, ?_, hact hold ?_⟩⟩
      · split_ifs <;> trivial
      · split_ifs
        · exact le_rfl
        · exact Nat.zero_le _
    | undefined => cases hs
  next acts id root hold =>
    obtain ⟨pc, hthr, hparent, hb, hw⟩ := sample_begins (St.putGlobal id) (fun _ _ => rfl) (fun _ _ => rfl) hs (rank priority)
    refine ⟨acts, pc, hthr, .inl ⟨hparent, hb, ?_⟩⟩
    rw [hold]
    exact Nat.add_lt_add_left (Nat.lt_succ_of_le hw) _
  next acts e m hold =>
    split at hs
    next parent' m' hm =>
      cases hs
      exact ⟨acts, .merge e m', rfl, .inr ⟨e, m, hold, by rw [hm], by rw [hm]⟩⟩
    next parent' ret hm =>
      cases hs
      exact ⟨acts, if ret.merged then .insert e else .idle, rfl, .inr ⟨e, m, hold, by rw [hm], by rw [hm]⟩⟩
  next acts e hold =>
    cases hs
    refine ⟨acts, .mark, rfl, .inl ⟨rfl, trivial, ?_⟩⟩
    rw [hold]
    exact Nat.add_lt_add_left (Nat.lt_succ_self 1) _
  next acts hold =>
    cases hs
    refine ⟨acts, .idle, rfl, .inl ⟨rfl, trivial, ?_⟩⟩
    rw [hold]
    exact Nat.add_lt_add_left Nat.one_pos _

/-- only a compare-exchange can fail spuriously -/
def Spurious (s : St P n T) (l : Fin T × Side) : Prop := ∃ e m, (s.thr l.1).pc = .merge e m ∧ m.Spurious s.parent l.2

/-- what the calls know is kept by the step of another thread -/
theorem DsuInv.update (h : DsuInv priority s) {t : Fin T} {x : Thread P n} (hthr : s'.thr = Function.update s.thr t x)
    (hg : Grows s.parent s'.parent) (hord : Ordered (rank priority) s'.parent)
    (hx : ∀ e m, x.pc = .merge e m → m.Inv priority s'.parent e.1 e.2 ∧ m.Climbs (rank priority) s'.parent) :
    DsuInv priority s' := by
  refine ⟨hord, ?_⟩
  rw [hthr]
  refine Threads.forall_update (Q := fun _ (x : Thread P n) => ∀ e m, x.pc = .merge e m →
    m.Inv priority s'.parent e.1 e.2 ∧ m.Climbs (rank priority) s'.parent) (fun t' e m hm => ?_) hx
  obtain ⟨hinv, hclimbs⟩ := h.calls t' e m hm
  exact ⟨hinv.mono hg, hclimbs.mono hg⟩

/-- **Every step of a round lowers the weight of its thread**, but for a spurious failure. -/
theorem DsuInv.step (h : DsuInv priority s) {l : Fin T × Side} (hs : Boruvka.step priority r s l = some s') :
    DsuInv priority s' ∧ Grows s.parent s'.parent ∧ (¬ Spurious s l →
      ∑ t, (s'.thr t).weight (rank priority) < ∑ t, (s.thr t).weight (rank priority)) := by
  obtain ⟨t, o⟩ := l
  obtain ⟨acts, pc, hthr, hcase⟩ := step_cases hs
  have hsum : Thread.weight (rank priority) ⟨acts, pc⟩ < (s.thr t).weight (rank priority) →
      ∑ t, (s'.thr t).weight (rank priority) < ∑ t, (s.thr t).weight (rank priority) := by
    intro hlt
    rw [hthr]
    refine Threads.sum_lt (i := t) (fun t' ht => by rw [Function.update_of_ne ht]) ?_
    rwa [Function.update_self]
  rcases hcase with ⟨hparent, hbegins, hlt⟩ | ⟨e, m, hold, hparent, hpc⟩
  · have hg : Grows s.parent s'.parent := hparent ▸ Grows.refl _
    refine ⟨h.update hthr hg (hparent ▸ h.ord) fun e m hm => ?_, hg, fun _ => hsum hlt⟩
    simp only at hm
    rw [hm] at hbegins
    cases hbegins
    exact ⟨MergePc.inv_start _ _ _ _, trivial⟩
  · obtain ⟨hinv, hclimbs⟩ := h.calls t e m (by rw [hold])
    have hpost := MergePc.step_spec h.ord hinv o
    rw [← hparent] at hpost
    rcases hst : (m.step priority s.parent o).2 with m' | ret <;> rw [hst] at hpost hpc
    · have hg : Grows s.parent s'.parent := hpost.1.grows h.ord
      have hclimb := MergePc.climbs_step h.ord hinv hclimbs hst
      rw [← hparent] at hclimb
      refine ⟨h.update hthr hg (hpost.1.ordered h.ord) fun e' m'' hm => ?_, hg, fun hns => hsum ?_⟩
      · rw [hpc] at hm
        cases hm
        exact ⟨hpost.2, hclimb.1⟩
      · have hlt := hclimb.2 fun hsp => hns ⟨e, m, by rw [hold], hsp⟩
        rw [hpc, hold]
        exact Nat.add_lt_add_left (Nat.add_lt_add_right hlt 2) _
    · have hret : Grows s.parent s'.parent ∧ Ordered (rank priority) s'.parent := by
        rcases hpost with ⟨-, hl⟩ | ⟨-, hq, -⟩
        · exact ⟨hl.grows h.ord, hl.ordered h.ord⟩
        · exact ⟨hq.grows h.ord, hq.ordered h.ord⟩
      refine ⟨h.update hthr hret.1 hret.2 fun e' m'' hm => ?_, hret.1, fun _ => hsum ?_⟩
      · rw [hpc] at hm
        simp only at hm
        split_ifs at hm
      · have hpos := m.weight_pos (rank priority)
        rw [hpc, hold]
        refine Nat.add_lt_add_left ?_ _
        simp only
        split_ifs
        · exact Nat.lt_add_of_pos_left hpos
        · exact Nat.succ_pos _

end round

/-! ## The merge instructions -/

namespace Create

variable {priority : Fin n → ℕ} {parent : Fin n → Fin n} {Q : Fin n → Fin n → Prop} {s s' : St n T}

/-- the calls of `find_root` in the first phase -/
def FindsClimb (priority : Fin n → ℕ) (s : St n T) : Prop :=
  ∀ t i child f, s.phase.pc t = some (.find i child f) → f.Climbs (rank priority) s.parent child

/-- every item left is a call of `find_root` and a new entry of `local_ccs` at most -/
def Collect.weight (rk : Fin n → ℕ ×ₗ (Fin n)ᵒᵈ) (t : Fin T) (l : Local n) : Collect n → ℕ
  | .visit i => ((seg n t).2 - i) * (findBound n + 3) + (l.localCcs.length + 1)
  | .find i _ f => ((seg n t).2 - (i + 1)) * (findBound n + 3) + (f.weight rk + (l.localCcs.length + 2))
  | .capture todo => todo.length

/-- the phase, and what is left in it -/
def St.rank (rk : Fin n → ℕ ×ₗ (Fin n)ᵒᵈ) (s : St n T) : ℕ ×ₗ ℕ :=
  match s.phase with
  | .collect thr => toLex (5, ∑ t, (thr t).weight rk t (s.locals t))
  | .prefixSum i => toLex (4, ∑ t, ((seg n t).2 - i t))
  | .single => toLex (3, 0)
  | .finish _ i => toLex (2, ∑ t, ((seg n t).2 - i t))
  | .write todo => toLex (1, ∑ t, (todo t).length)
  | .undefined => toLex (0, 0)

theorem findsClimb_of_none (h : ∀ t, s.phase.pc t = none) : FindsClimb priority s := fun t i child f hf => by
  rw [h] at hf
  cases hf

theorem findsClimb_start (m0 : Fin n → MergeInstr n) : FindsClimb priority (start m0 parent : St n T) :=
  fun t i child f h => by cases h

theorem length_pushBack (root child : Fin n) (ccs : List (Fin n × List (Fin n))) :
    (pushBack root child ccs).length ≤ ccs.length + 1 := by
  induction ccs with
  | nil => exact le_rfl
  | cons cc ccs ih =>
    unfold pushBack
    split_ifs
    · exact Nat.le_succ _
    · exact Nat.succ_le_succ ih

/-- the phase is left for a later one -/
theorem rank_lt_of_stage {a b x y : ℕ} (h : a < b) : toLex (a, x) < toLex (b, y) := Prod.Lex.toLex_lt_toLex.2 (.inl h)

/-- or less is left in it -/
theorem rank_lt_of_left {a x y : ℕ} (h : x < y) : toLex (a, x) < toLex (a, y) := Prod.Lex.toLex_lt_toLex.2 (.inr ⟨rfl, h⟩)

/-- thread t of the first phase moves to c -/
theorem collect_update {thr : Fin T → Collect n} {t : Fin T} {c : Collect n} (hc : FindsClimb priority s)
    (hphase : s.phase = .collect thr) (hphase' : s'.phase = .collect (Function.update thr t c)) (hg : Grows s.parent s'.parent)
    (hlocals : ∀ t', t' ≠ t → s'.locals t' = s.locals t')
    (hclimbs : ∀ i child f, c = .find i child f → f.Climbs (Dsu.rank priority) s'.parent child)
    (hlt : c.weight (Dsu.rank priority) t (s'.locals t) < (thr t).weight (Dsu.rank priority) t (s.locals t)) :
    FindsClimb priority s' ∧ s'.rank (Dsu.rank priority) < s.rank (Dsu.rank priority) := by
  refine ⟨fun t' i child f hf => ?_, ?_⟩
  · rw [hphase', Phase.pc, Option.some.injEq] at hf
    refine Threads.forall_update (Q := fun _ (c : Collect n) =>
      ∀ i child f, c = .find i child f → f.Climbs (Dsu.rank priority) s'.parent child)
      (fun t' i child f hf => ?_) hclimbs t' i child f hf
    exact (hc t' i child f (by rw [hphase, Phase.pc, hf])).mono hg
  · simp only [St.rank, hphase, hphase']
    refine rank_lt_of_left (Threads.sum_lt (i := t) (fun t' ht => ?_) ?_)
    · rw [Function.update_of_ne ht, hlocals t' ht]
    · rwa [Function.update_self]

theorem rank_collectStep (h : RootInv priority parent Q s) (hc : FindsClimb priority s) {thr : Fin T → Collect n}
    (hphase : s.phase = .collect thr) {t : Fin T} {o : Side} (hs : collectStep s thr t o = some s') :
    FindsClimb priority s' ∧ s'.rank (Dsu.rank priority) < s.rank (Dsu.rank priority) := by
  unfold collectStep at hs
  split at hs
  next i hi =>
    split_ifs at hs with hlt
    cases hm : instrAt s.mergeInstr i with
    | none =>
      rw [hm] at hs
      cases hs
      refine ⟨findsClimb_of_none fun _ => rfl, ?_⟩
      simp only [St.rank, hphase, St.fault]
      exact rank_lt_of_stage (by norm_num)
    | some m =>
      simp only [hm, Option.some.injEq] at hs
      cases hs
      refine collect_update hc hphase rfl (Grows.refl _) (fun _ _ => rfl) (fun i child f he => ?_) ?_
      · cases he
        exact FindPc.climbs_start _ _ _
      · have hstart := FindPc.weight_start_le (Dsu.rank priority) m.child
        simp only [hi, Collect.weight]
        rw [show (seg n t).2 - i = (seg n t).2 - (i + 1) + 1 by omega, Nat.succ_mul]
        omega
  next i child f hf =>
    have hfind : s.phase.pc t = some (.find i child f) := by rw [hphase, Phase.pc, hf]
    have hq := (FindPc.step_spec h.ord (h.finds t i child f hfind) o).1
    have hclimb := FindPc.climbs_step h.ord (h.finds t i child f hfind) (hc t i child f hfind) o
    rcases hst : f.step s.parent o with ⟨p', f' | root⟩ <;> rw [hst] at hs hq hclimb <;> cases hs
    · refine collect_update hc hphase rfl (hq.grows h.ord) (fun _ _ => rfl) (fun i' child' f'' he => ?_) ?_
      · cases he
        exact hclimb.1
      · rw [hf]
        exact Nat.add_lt_add_left (Nat.add_lt_add_right hclimb.2 _) _
    · refine collect_update hc hphase rfl (hq.grows h.ord) (fun t' ht => Function.update_of_ne ht _ _)
        (fun i' child' f'' he => by cases he) ?_
      have hpush := length_pushBack root child (s.locals t).localCcs
      have hpos := f.weight_pos (Dsu.rank priority)
      simp only [hf, Collect.weight, Function.update_self]
      omega
  next => cases hs
  next cc todo hcap =>
    cases hs
    refine collect_update hc hphase rfl (Grows.refl _) (fun t' ht => Function.update_of_ne ht _ _)
      (fun i' child' f'' he => by cases he) ?_
    rw [hcap]
    exact Nat.lt_succ_self _

/-- a thread is one item further in its segment -/
theorem sum_segment_lt {i : Fin T → ℕ} {t : Fin T} (hi : i t < (seg n t).2) :
    ∑ t', ((seg n t').2 - Function.update i t (i t + 1) t') < ∑ t', ((seg n t').2 - i t') := by
  refine Threads.sum_lt (i := t) (fun t' ht => by rw [Function.update_of_ne ht]) ?_
  rw [Function.update_self]
  omega

theorem rank_barrierStep (hs : barrierStep s = some s') :
    FindsClimb priority s' ∧ s'.rank (Dsu.rank priority) < s.rank (Dsu.rank priority) := by
  unfold barrierStep at hs
  split at hs
  next thr hphase =>
    split_ifs at hs
    cases hs
    refine ⟨findsClimb_of_none fun _ => rfl, ?_⟩
    simp only [St.rank, hphase]
    exact rank_lt_of_stage (by norm_num)
  next i hphase =>
    split_ifs at hs
    cases hs
    refine ⟨findsClimb_of_none fun _ => rfl, ?_⟩
    simp only [St.rank, hphase]
    exact rank_lt_of_stage (by norm_num)
  next hphase =>
    split_ifs at hs <;> cases hs <;> refine ⟨findsClimb_of_none fun _ => rfl, ?_⟩ <;>
      simp only [St.rank, hphase, St.fault] <;> exact rank_lt_of_stage (by norm_num)
  next rangeSums i hphase =>
    split_ifs at hs
    cases hs
    refine ⟨findsClimb_of_none fun _ => rfl, ?_⟩
    simp only [St.rank, hphase]
    exact rank_lt_of_stage (by norm_num)
  next => cases hs
  next => cases hs

/-- **Every step of `create_merge_instructions` lowers its rank.** -/
theorem rank_step (h : RootInv priority parent Q s) (hc : FindsClimb priority s) {l : Label n T} (hs : step s l = some s') :
    FindsClimb priority s' ∧ s'.rank (Dsu.rank priority) < s.rank (Dsu.rank priority) := by
  cases l with
  | thread t o =>
    simp only [step] at hs
    split at hs
    next thr hphase => exact rank_collectStep h hc hphase hs
    next i hphase =>
      unfold prefixStep at hs
      split_ifs at hs with hlt hb <;> cases hs <;> refine ⟨findsClimb_of_none fun _ => rfl, ?_⟩ <;>
        simp only [St.rank, hphase, St.fault]
      · exact rank_lt_of_left (sum_segment_lt hlt)
      · exact rank_lt_of_stage (by norm_num)
    next rangeSums i hphase =>
      unfold finishStep at hs
      split_ifs at hs with hlt hb <;> cases hs <;> refine ⟨findsClimb_of_none fun _ => rfl, ?_⟩ <;>
        simp only [St.rank, hphase, St.fault]
      · exact rank_lt_of_left (sum_segment_lt hlt)
      · exact rank_lt_of_stage (by norm_num)
    next todo hphase =>
      unfold writeStep at hs
      split at hs
      next => cases hs
      next i m rest htodo =>
        split_ifs at hs with hb <;> cases hs <;> refine ⟨findsClimb_of_none fun _ => rfl, ?_⟩ <;>
          simp only [St.rank, hphase, St.fault]
        · refine rank_lt_of_left (Threads.sum_lt (i := t) (fun t' ht => by rw [Function.update_of_ne ht]) ?_)
          rw [Function.update_self, htodo]
          exact Nat.lt_succ_self _
        · exact rank_lt_of_stage (by norm_num)
    next => cases hs
    next => cases hs
  | iterate t order =>
    simp only [step] at hs
    split at hs
    next thr hphase =>
      split at hs
      next i hi =>
        split_ifs at hs with horder
        cases hs
        refine collect_update hc hphase rfl (Grows.refl _) (fun t' ht => Function.update_of_ne ht _ _)
          (fun i' child' f'' he => by cases he) ?_
        have hlen := horder.2.length_eq
        rw [hi, Collect.weight, Collect.weight]
        omega
      next => cases hs
      next => cases hs
    all_goals cases hs
  | barrier => exact rank_barrierStep hs

/-- a state that is not undefined goes on until all assignments are made -/
theorem enabled (hdef : s.phase ≠ .undefined) (hd : ¬ Done s) : ∃ l s', step s l = some s' := by
  unfold Done at hd
  cases hphase : s.phase with
  | collect thr =>
    by_cases hall : ∀ t, thr t = .capture []
    · exact ⟨.barrier, _, by simp only [step, barrierStep, hphase]; rw [if_pos hall]⟩
    · obtain ⟨t, ht⟩ := not_forall.1 hall
      cases hcol : thr t with
      | visit i =>
        by_cases hi : i < (seg n t).2
        · exact ⟨.thread t .left, _, by simp only [step, hphase, collectStep, hcol]; rw [if_pos hi]⟩
        · exact ⟨.iterate t (s.locals t).localCcs, _, by
            simp only [step, hphase, hcol]
            rw [if_pos ⟨not_lt.1 hi, List.Perm.refl _⟩]⟩
      | find i child f =>
        rcases hst : f.step s.parent .left with ⟨p', f' | root⟩ <;>
          exact ⟨.thread t .left, _, by simp only [step, hphase, collectStep, hcol, hst]; rfl⟩
      | capture todo =>
        cases todo with
        | nil => exact absurd hcol ht
        | cons cc todo => exact ⟨.thread t .left, _, by simp only [step, hphase, collectStep, hcol]; rfl⟩
  | prefixSum i =>
    by_cases hall : ∀ t, (seg n t).2 ≤ i t
    · exact ⟨.barrier, _, by simp only [step, barrierStep, hphase]; rw [if_pos hall]⟩
    · obtain ⟨t, ht⟩ := not_forall.1 hall
      exact ⟨.thread t .left, _, by simp only [step, hphase, prefixStep]; rw [if_pos (not_le.1 ht)]⟩
  | single => exact ⟨.barrier, _, by simp only [step, barrierStep, hphase]; rfl⟩
  | finish rangeSums i =>
    by_cases hall : ∀ t, (seg n t).2 ≤ i t
    · exact ⟨.barrier, _, by simp only [step, barrierStep, hphase]; rw [if_pos hall]⟩
    · obtain ⟨t, ht⟩ := not_forall.1 hall
      exact ⟨.thread t .left, _, by simp only [step, hphase, finishStep]; rw [if_pos (not_le.1 ht)]⟩
  | write todo =>
    rw [hphase] at hd
    obtain ⟨t, ht⟩ := not_forall.1 hd
    cases htodo : todo t with
    | nil => exact absurd htodo ht
    | cons w rest => exact ⟨.thread t .left, _, by simp only [step, hphase, writeStep, htodo]; rfl⟩
  | undefined => exact absurd hphase hdef

end Create

end GraphStreamingCC.Boruvka
