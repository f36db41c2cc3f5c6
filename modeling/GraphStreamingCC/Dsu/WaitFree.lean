/-
The concurrent union-find never keeps a caller waiting.

The weights of `Dsu.Progress` depend on the ranks of the items alone, so that no thread can add to the weight of
another. A thread therefore pays for each of its operations from its own account, which its calls have filled when it
began; only a compare-exchange that fails spuriously gives back the price of one turn of its loop.

`wait_free`: an explicit bound on the operations that a thread makes, whatever the others do or do not do.
-/
import GraphStreamingCC.Dsu.Progress
import GraphStreamingCC.Dsu.Threads

namespace GraphStreamingCC.Dsu

open ParentForest Runs

variable {n T : ℕ} {priority : Fin n → ℕ} {p p' : Fin n → Fin n}

/-! ## The account of a thread -/

/-- what a call may cost, with the step that begins it -/
def Call.bound : Call n → ℕ
  | .findRoot _ => 9 * n + 9
  | .merge .. => 36 * n ^ 2 + 58 * n + 21

def CallPc.weight (rk : Fin n → ℕ ×ₗ (Fin n)ᵒᵈ) : CallPc n → ℕ
  | .find f => f.weight rk
  | .merge m => m.weight rk

/-- the weight of the call that a thread is in, and what its other calls may cost -/
def Thread.weight (rk : Fin n → ℕ ×ₗ (Fin n)ᵒᵈ) (x : Thread n) : ℕ :=
  (x.todo.map Call.bound).sum + (x.cur.map fun c => c.2.weight rk).getD 0

def CallPc.Climbs (rk : Fin n → ℕ ×ₗ (Fin n)ᵒᵈ) (p : Fin n → Fin n) : Call n → CallPc n → Prop
  | .findRoot u, .find f => f.Climbs rk p u
  | _, .merge m => m.Climbs rk p
  | .merge .., .find _ => False

/-- the compare-exchange fails although the item is still its own parent -/
def CallPc.Spurious (p : Fin n → Fin n) (o : Side) : CallPc n → Prop
  | .find _ => False
  | .merge m => m.Spurious p o

instance (p : Fin n → Fin n) (o : Side) : (pc : CallPc n) → Decidable (pc.Spurious p o)
  | .find _ => inferInstanceAs (Decidable False)
  | .merge m => inferInstanceAs (Decidable (m.Spurious p o))

theorem CallPc.Climbs.mono {rk : Fin n → ℕ ×ₗ (Fin n)ᵒᵈ} {c : Call n} {pc : CallPc n} (h : pc.Climbs rk p c)
    (hg : Grows p p') : pc.Climbs rk p' c := by
  cases pc with
  | find f =>
    cases c with
    | findRoot u => exact FindPc.Climbs.mono h hg
    | merge u v => exact h
  | merge m => cases c <;> exact MergePc.Climbs.mono h hg

theorem CallPc.climbs_start (rk : Fin n → ℕ ×ₗ (Fin n)ᵒᵈ) (p : Fin n → Fin n) (c : Call n) : c.start.Climbs rk p c := by
  cases c with
  | findRoot u => exact FindPc.climbs_start rk p u
  | merge u v => trivial

theorem CallPc.weight_start_lt (rk : Fin n → ℕ ×ₗ (Fin n)ᵒᵈ) (c : Call n) : c.start.weight rk < c.bound := by
  cases c with
  | findRoot u => exact Nat.lt_succ_of_le (FindPc.weight_start_le rk u)
  | merge u v =>
    have hbound : mergeBound n + 1 = 36 * n ^ 2 + 58 * n + 21 := by
      simp only [mergeBound, turnBound, findBound]
      ring
    exact (Nat.lt_succ_of_le (MergePc.weight_start_le rk u v)).trans_eq hbound

theorem CallPc.weight_pos (rk : Fin n → ℕ ×ₗ (Fin n)ᵒᵈ) (pc : CallPc n) : 0 < pc.weight rk := by
  cases pc with
  | find f => exact f.weight_pos rk
  | merge m => exact m.weight_pos rk

/-- a spurious failure costs a turn of the loop of `merge`, less the operation itself -/
theorem MergePc.weight_spurious {m m' : MergePc n} {o : Side} (rk : Fin n → ℕ ×ₗ (Fin n)ᵒᵈ) (h : m.Spurious p o)
    (hs : (m.step priority p o).2 = .inl m') : m'.weight rk + 1 = m.weight rk + turnBound n := by
  cases m with
  | cas a b =>
    obtain ⟨rfl, hb⟩ := h
    cases hs
    simp only [MergePc.weight, hb]
    omega
  | loop | first | second => exact h.elim

/-- **What an operation of a call pays.** -/
theorem CallPc.climbs_step (ho : Ordered (rank priority) p) {c : Call n} {pc pc' : CallPc n} (h : pc.Inv priority p c)
    (hc : pc.Climbs (rank priority) p c) {o : Side} (hs : pc.step priority p o = (p', .inl pc')) :
    pc'.Climbs (rank priority) p' c ∧
      pc'.weight (rank priority) + 1 ≤ pc.weight (rank priority) + if pc.Spurious p o then turnBound n else 0 := by
  cases pc with
  | find f =>
    cases c with
    | merge u v => exact hc.elim
    | findRoot u =>
      have hf := FindPc.climbs_step ho h hc o
      simp only [CallPc.step] at hs
      rcases hst : f.step p o with ⟨q, f' | r⟩ <;> rw [hst] at hs hf <;> cases hs
      refine ⟨hf.1, ?_⟩
      rw [if_neg (show ¬ CallPc.Spurious p o (.find f) from id)]
      exact hf.2
  | merge m =>
    cases c with
    | findRoot u => exact h.elim
    | merge u v =>
      simp only [CallPc.step] at hs
      rcases hst : m.step priority p o with ⟨q, m' | r⟩ <;> rw [hst] at hs <;> cases hs
      have hinl : (m.step priority p o).2 = .inl m' := by rw [hst]
      obtain ⟨hclimbs, hlt⟩ := MergePc.climbs_step ho h hc hinl
      rw [hst] at hclimbs
      refine ⟨hclimbs, ?_⟩
      by_cases hsp : m.Spurious p o
      · rw [if_pos (show CallPc.Spurious p o (.merge m) from hsp)]
        exact (MergePc.weight_spurious _ hsp hinl).le
      · rw [if_neg (show ¬ CallPc.Spurious p o (.merge m) from hsp)]
        exact hlt hsp

/-! ## Runs -/

/-- what `wait_free` needs to know of a state -/
structure AccountInv (priority : Fin n → ℕ) (progs : Fin T → List (Call n)) (s : St n T) : Prop where
  inv : Inv priority progs s
  climbs : ∀ t c pc, (s.thr t).cur = some (c, pc) → pc.Climbs (rank priority) s.parent c

/-- an operation of thread t -/
def Operates (t : Fin T) (_ : St n T) (l : Fin T × Side) : Prop := l.1 = t

/-- one that fails spuriously -/
def Fails (t : Fin T) (s : St n T) (l : Fin T × Side) : Prop :=
  l.1 = t ∧ ∃ c ∈ (s.thr t).cur, c.2.Spurious s.parent l.2

instance (t : Fin T) (s : St n T) (l : Fin T × Side) : Decidable (Operates t s l) := inferInstanceAs (Decidable (l.1 = t))

instance (t : Fin T) (s : St n T) (l : Fin T × Side) : Decidable (Fails t s l) :=
  inferInstanceAs (Decidable (l.1 = t ∧ ∃ c ∈ (s.thr t).cur, c.2.Spurious s.parent l.2))

section step

variable {progs : Fin T → List (Call n)} {s s' : St n T}

theorem accountInv_init (priority : Fin n → ℕ) (progs : Fin T → List (Call n)) : AccountInv priority progs (init progs) :=
  ⟨inv_init priority progs, fun t c pc h => by cases h⟩

/-- every write that a step can make leaves observations as they are -/
theorem grows_step (h : Inv priority progs s) {l : Fin T × Side} (hs : step priority s l = some s') :
    Grows s.parent s'.parent := by
  obtain ⟨t, o⟩ := l
  rcases step_cases hs with ⟨c, cs, -, -, rfl⟩ | ⟨c, pc, q, pc', hcur, hpc, rfl⟩ | ⟨c, pc, q, r, hcur, hpc, rfl⟩
  · exact Grows.refl _
  · have hspec := CallPc.step_spec h.ord (h.calls t c pc hcur) o
    rw [hpc] at hspec
    exact hspec.1.grows h.ord
  · have hspec := CallPc.step_spec h.ord (h.calls t c pc hcur) o
    rw [hpc] at hspec
    exact (Returns.grows h.ord hspec).2

/-- the operation of a thread, seen from its account -/
theorem weight_step (h : AccountInv priority progs s) {t : Fin T} {o : Side} (hs : step priority s (t, o) = some s') :
    (∀ c pc, (s'.thr t).cur = some (c, pc) → pc.Climbs (rank priority) s'.parent c) ∧
      (s'.thr t).weight (rank priority) + 1 ≤
        (s.thr t).weight (rank priority) + if Fails t s (t, o) then turnBound n else 0 := by
  rcases step_cases hs with ⟨c, cs, hcur, htodo, rfl⟩ | ⟨c, pc, q, pc', hcur, hpc, rfl⟩ | ⟨c, pc, q, r, hcur, hpc, rfl⟩ <;>
    simp only [Function.update_self]
  · have hlt := CallPc.weight_start_lt (rank priority) c
    refine ⟨?_, ?_⟩
    · intro c' pc' he
      cases he
      exact CallPc.climbs_start _ _ c
    · simp only [Thread.weight, hcur, htodo, List.map_cons, List.sum_cons, Option.map_some, Option.getD_some,
        Option.map_none, Option.getD_none]
      omega
  · obtain ⟨hclimbs, hpay⟩ := CallPc.climbs_step h.inv.ord (h.inv.calls t c pc hcur) (h.climbs t c pc hcur) hpc
    refine ⟨fun c' pc'' he => ?_, ?_⟩
    · cases he
      exact hclimbs
    · have hfails : Fails t s (t, o) ↔ pc.Spurious s.parent o := by simp [Fails, hcur]
      simp only [Thread.weight, hcur, hfails, Option.map_some, Option.getD_some]
      omega
  · have hpos := CallPc.weight_pos (rank priority) pc
    refine ⟨fun c' pc' he => (by cases he), ?_⟩
    simp only [Thread.weight, hcur, Option.map_some, Option.getD_some, Option.map_none, Option.getD_none]
    omega

/-- no step touches another thread -/
theorem thr_of_ne {t t' : Fin T} {o : Side} (hs : step priority s (t, o) = some s') (ht : t' ≠ t) : s'.thr t' = s.thr t' := by
  rcases step_cases hs with ⟨c, cs, -, -, rfl⟩ | ⟨c, pc, q, pc', -, -, rfl⟩ | ⟨c, pc, q, r, -, -, rfl⟩ <;>
    exact Function.update_of_ne ht _ _

theorem account_step (h : AccountInv priority progs s) (t : Fin T) {l : Fin T × Side} (hs : step priority s l = some s') :
    AccountInv priority progs s' ∧ (s'.thr t).weight (rank priority) + (if Operates t s l then 1 else 0) ≤
      (s.thr t).weight (rank priority) + if Fails t s l then turnBound n else 0 := by
  obtain ⟨u, o⟩ := l
  obtain ⟨hclimbs, hpay⟩ := weight_step h hs
  refine ⟨⟨step_inv h.inv hs, fun t' c pc hcur => ?_⟩, ?_⟩
  · by_cases ht : t' = u
    · subst ht
      exact hclimbs c pc hcur
    · rw [thr_of_ne hs ht] at hcur
      exact (h.climbs t' c pc hcur).mono (grows_step h.inv hs)
  · by_cases ht : u = t
    · subst ht
      rw [if_pos (show Operates u s (u, o) from rfl)]
      exact hpay
    · have hnot : ¬ Operates t s (u, o) := ht
      have hfails : ¬ Fails t s (u, o) := fun hf => ht hf.1
      rw [thr_of_ne hs (Ne.symm ht), if_neg hnot, if_neg hfails]

/-- a thread that has still something to do can go on, whatever the others do -/
theorem exists_step {t : Fin T} (h : ¬ ((s.thr t).cur = none ∧ (s.thr t).todo = [])) (o : Side) :
    ∃ s', step priority s (t, o) = some s' := by
  simp only [step]
  split
  next hcur =>
    split
    next htodo => exact absurd ⟨hcur, htodo⟩ h
    next => exact ⟨_, rfl⟩
  next => split <;> exact ⟨_, rfl⟩

end step

/-- the operations of a thread in a run are those of its labels -/
theorem count_operates {t : Fin T} {s s' : St n T} {ls : List (Fin T × Side)} (hs : exec (step priority) s ls = some s') :
    count (step priority) (Operates t) s ls = (ls.filter fun l => l.1 = t).length := by
  induction ls generalizing s with
  | nil => rfl
  | cons l ls ih =>
    obtain ⟨u, hu, hrest⟩ := exec_cons_some _ hs
    rw [count_cons _ ls hu, ih hrest, List.filter_cons]
    by_cases hl : l.1 = t
    · rw [if_pos (show Operates t s l from hl), if_pos (decide_eq_true hl), List.length_cons, Nat.add_comm]
    · rw [if_neg (show ¬ Operates t s l from hl), if_neg (by simpa using hl), Nat.zero_add]

/-- **The concurrent union-find is wait-free.** In every run of any number of threads, a thread that has not finished its
calls can make its next operation; and it makes at most as many as its calls may cost, at most `9 n + 9` for a
`find_root` and `36 n^2 + 58 n + 21` for a `merge`, and `18 n + 20` more for each compare-exchange of its own that fails
spuriously. No other thread can make it wait. -/
theorem wait_free (priority : Fin n → ℕ) (progs : Fin T → List (Call n)) (t : Fin T) {ls : List (Fin T × Side)} {s : St n T}
    (hs : exec (step priority) (init progs) ls = some s) :
    (ls.filter fun l => l.1 = t).length ≤ ((progs t).map Call.bound).sum +
      (18 * n + 20) * count (step priority) (Fails t) (init progs) ls ∧
    (¬ ((s.thr t).cur = none ∧ (s.thr t).todo = []) → ∀ o, ∃ s', step priority s (t, o) = some s') := by
  constructor
  · have hcost := exec_cost (step priority) (I := AccountInv priority progs) (c := Operates t) (d := Fails t)
      (fun s => (s.thr t).weight (rank priority)) (turnBound n) (fun s l s' h hs => account_step h t hs)
      (accountInv_init priority progs) hs
    have hstart : ((init progs : St n T).thr t).weight (rank priority) = ((progs t).map Call.bound).sum := rfl
    have hturn : turnBound n = 18 * n + 20 := by
      simp only [turnBound, findBound]
      ring
    rw [hstart, hturn, count_operates hs] at hcost
    omega
  · intro h o
    exact exists_step h o

/-- thread 0 fails spuriously at its compare-exchange and merges in a second turn of its loop, thread 1 not at all -/
def retryRun : List (Fin 2 × Side) :=
  List.replicate 10 (Threads.fst, .left) ++ [(Threads.fst, .right)] ++ List.replicate 10 (Threads.fst, .left)

theorem wait_free_retry : ∃ s, exec (step fun u : Fin 3 => u.val) (init twoMerges) retryRun = some s ∧
    (retryRun.filter fun l => l.1 = Threads.fst).length = 21 ∧
    count (step fun u : Fin 3 => u.val) (Fails Threads.fst) (init twoMerges) retryRun = 1 ∧ 21 ≤ 519 + 74 * 1 := by
  obtain ⟨s, hs⟩ : ∃ s, exec (step fun u : Fin 3 => u.val) (init twoMerges) retryRun = some s := ⟨_, rfl⟩
  have hfails : count (step fun u : Fin 3 => u.val) (Fails Threads.fst) (init twoMerges) retryRun = 1 := by decide +kernel
  have hbound := (wait_free (fun u : Fin 3 => u.val) twoMerges Threads.fst hs).1
  rw [hfails] at hbound
  exact ⟨s, hs, by decide, hfails, hbound⟩

end GraphStreamingCC.Dsu
