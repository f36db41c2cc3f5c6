/-
Without overlapping calls, the two union-finds of include/dsu.h cannot be told apart.

`DisjointSetUnion_MT` is `DisjointSetUnion` with atomics: its `find_root` has the same loop, but `merge` evaluates its
operands in any order, links by a compare-exchange and begins again when that fails. If no call begins while another is
in progress, `find_root` returns roots (`FindPc.Exact`), and the compare-exchange finds two roots (`MergePc.Exact`). The
arrays may differ, since the operands of `merge` may have been evaluated in another order; the roots do not.

`alone_sequential`: the threads together get what a `DisjointSetUnion` with the same priorities returns for the same
calls.
-/
import GraphStreamingCC.Dsu.Sequential
import GraphStreamingCC.Dsu.Threads

namespace GraphStreamingCC

open Dsu ParentForest Runs

variable {n T : ℕ}

namespace DisjointSetUnion

/-! ## The calls of one caller -/

def call (d : DisjointSetUnion n) : Call n → DisjointSetUnion n × Ret n
  | .findRoot u => ((d.findRoot u).1, .root (d.findRoot u).2)
  | .merge u v => ((d.merge u v).1, .merge (d.merge u v).2)

/-- calls one after another, with what they return -/
def calls (d : DisjointSetUnion n) (cs : List (Call n)) : DisjointSetUnion n × List (Call n × Ret n) :=
  cs.foldl (fun x c => ((x.1.call c).1, x.2 ++ [(c, (x.1.call c).2)])) (d, [])

theorem calls_append (d : DisjointSetUnion n) (cs : List (Call n)) (c : Call n) :
    d.calls (cs ++ [c]) = (((d.calls cs).1.call c).1, (d.calls cs).2 ++ [(c, ((d.calls cs).1.call c).2)]) :=
  List.foldl_append

@[simp] theorem priority_findRoot (d : DisjointSetUnion n) (u : Fin n) : (d.findRoot u).1.priority = d.priority := rfl

theorem priority_merge (d : DisjointSetUnion n) (u v : Fin n) : (d.merge u v).1.priority = d.priority := by
  obtain ⟨q, hp, -, ⟨-, he⟩ | ⟨a, b, h, -, -, he⟩⟩ := d.merge_eq u v
  · rw [he]
    exact hp
  · rw [he]
    exact hp

theorem priority_calls (d : DisjointSetUnion n) (cs : List (Call n)) : (d.calls cs).1.priority = d.priority := by
  induction cs using List.reverseRecOn with
  | nil => rfl
  | append_singleton cs c ih =>
    rw [calls_append]
    cases c with
    | findRoot u => exact ih
    | merge u v => exact (priority_merge _ u v).trans ih

end DisjointSetUnion

namespace Dsu

variable {priority : Fin n → ℕ} {p p' : Fin n → Fin n}

/-! ## A merge on its own -/

/-- a root is still one after a halving store -/
theorem fixed_of_quiet {β : Type*} [LinearOrder β] {rk : Fin n → β} (ho : Ordered rk p) (hq : Quiet rk p p') {w : Fin n}
    (hw : p w = w) : p' w = w := by
  have hfix := (hq.ordered ho).root_fixed w
  rwa [hq.root_eq ho, root_of_fixed hw] at hfix

theorem FindPc.exact_start (p : Fin n → Fin n) (u : Fin n) : (FindPc.start u).Exact p := by
  intro z hz
  cases hz

/-- what a `merge` knows when no other thread writes while it runs -/
def MergePc.Exact (p : Fin n → Fin n) : MergePc n → Prop
  | .loop .. => True
  | .first _ _ _ f => f.Exact p
  | .second o a b f => p (pick o a b) = pick o a b ∧ f.Exact p
  | .cas a b => p a = a ∧ p b = b

theorem pick_assign (o : Side) (a b r : Fin n) : pick o (assign o a b r).1 (assign o a b r).2 = r := by
  cases o <;> rfl

theorem pick_assign_other (o : Side) (a b r : Fin n) :
    pick o (assign o.other a b r).1 (assign o.other a b r).2 = pick o a b := by
  cases o <;> rfl

theorem pick_other_assign (o : Side) (a b r : Fin n) :
    pick o.other (assign o.other a b r).1 (assign o.other a b r).2 = r := by
  cases o <;> rfl

/-- both operands are roots if the two sides are -/
theorem fixed_of_pick {a b : Fin n} (o : Side) (h : p (pick o a b) = pick o a b) (h' : p (pick o.other a b) = pick o.other a b) :
    p a = a ∧ p b = b := by
  cases o with
  | left => exact ⟨h, h'⟩
  | right => exact ⟨h', h⟩

theorem MergePc.exact_step (ho : Ordered (rank priority) p) {u v : Fin n} {m m' : MergePc n} (h : m.Inv priority p u v)
    (he : m.Exact p) {o : Side} (hs : m.step priority p o = (p', .inl m')) : m'.Exact p' := by
  cases m with
  | loop a b =>
    cases hs
    exact FindPc.exact_start p _
  | first o' a b f =>
    simp only [MergePc.step] at hs
    rcases hst : f.step p o with ⟨q, f' | r⟩ <;> rw [hst] at hs <;> cases hs
    · exact FindPc.exact_step he o hst
    · obtain ⟨rfl, hr⟩ := FindPc.root_of_finalLoad ho h.2 (FindPc.Exact.finalLoad he) hst
      refine ⟨?_, FindPc.exact_start p' _⟩
      rw [pick_assign, hr]
      exact ho.root_fixed _
  | second o' a b f =>
    obtain ⟨hroot, hf⟩ := he
    have hq := (FindPc.step_spec ho h.2 o).1
    simp only [MergePc.step] at hs
    rcases hst : f.step p o with ⟨q, f' | r⟩ <;> rw [hst] at hs hq
    · cases hs
      exact ⟨fixed_of_quiet ho hq hroot, FindPc.exact_step hf o hst⟩
    · obtain ⟨rfl, hr⟩ := FindPc.root_of_finalLoad ho h.2 (FindPc.Exact.finalLoad hf) hst
      simp only [Prod.mk.injEq] at hs
      obtain ⟨rfl, htest⟩ := hs
      have hfixed : q (assign o'.other a b r).1 = (assign o'.other a b r).1 ∧
          q (assign o'.other a b r).2 = (assign o'.other a b r).2 := by
        apply fixed_of_pick o'
        · rw [pick_assign_other]
          exact hroot
        · rw [pick_other_assign, hr]
          exact ho.root_fixed _
      unfold MergePc.test at htest
      split_ifs at htest with hne
      cases htest
      rcases orderEdge_spec priority hne with ⟨hord, -⟩ | ⟨hord, -⟩ <;> rw [hord]
      · exact hfixed
      · exact hfixed.symm
  | cas a b =>
    cases o with
    | left =>
      simp only [MergePc.step] at hs
      split_ifs at hs
      · cases hs
      · cases hs
        trivial
    | right =>
      cases hs
      trivial

/-- **What a merge returns on its own**: nothing has changed, or the lower of the two roots has got the higher one as its
parent. -/
theorem MergePc.exact_return (ho : Ordered (rank priority) p) {u v : Fin n} {m : MergePc n} (h : m.Inv priority p u v)
    (he : m.Exact p) {o : Side} {r : DSUMergeRet} (hs : m.step priority p o = (p', .inr r)) :
    (r = ⟨false, 0, 0⟩ ∧ p' = p ∧ Same p u v) ∨
      ∃ a b : Fin n, r = ⟨true, a, b⟩ ∧ rank priority b < rank priority a ∧ p b = b ∧ p' = Function.update p b a ∧
        (a = root p u ∧ b = root p v ∨ a = root p v ∧ b = root p u) := by
  have hspec := MergePc.step_spec ho h o
  rw [hs] at hspec
  cases m with
  | loop a b => cases hs
  | first o' a b f =>
    simp only [MergePc.step] at hs
    rcases hst : f.step p o with ⟨q, f' | r⟩ <;> rw [hst] at hs <;> cases hs
  | second o' a b f =>
    simp only [MergePc.step] at hs
    rcases hst : f.step p o with ⟨q, f' | r⟩ <;> rw [hst] at hs
    · cases hs
    · obtain ⟨rfl, -⟩ := FindPc.root_of_finalLoad ho h.2 (FindPc.Exact.finalLoad he.2) hst
      simp only [Prod.mk.injEq] at hs
      obtain ⟨rfl, htest⟩ := hs
      unfold MergePc.test at htest
      split_ifs at htest
      cases htest
      rcases hspec with ⟨hf, -⟩ | ⟨-, -, hsame⟩
      · cases hf
      · exact .inl ⟨rfl, rfl, hsame⟩
  | cas a b =>
    obtain ⟨hpair, hlt⟩ := h
    obtain ⟨ha, hb⟩ := he
    cases o with
    | right => cases hs
    | left =>
      simp only [MergePc.step] at hs
      rw [if_pos hb] at hs
      cases hs
      refine .inr ⟨a, b, rfl, hlt, hb, rfl, ?_⟩
      rcases hpair with ⟨h1, h2⟩ | ⟨h1, h2⟩
      · exact .inl ⟨(root_of_fixed ha).symm.trans h1, (root_of_fixed hb).symm.trans h2⟩
      · exact .inr ⟨(root_of_fixed ha).symm.trans h1, (root_of_fixed hb).symm.trans h2⟩

/-! ## Calls that do not overlap -/

/-- no other thread is in a call -/
def Solo (s : St n T) (l : Fin T × Side) : Prop := ∀ t, t ≠ l.1 → (s.thr t).cur = none

instance (s : St n T) (l : Fin T × Side) : Decidable (Solo s l) :=
  inferInstanceAs (Decidable (∀ t, t ≠ l.1 → (s.thr t).cur = none))

def CallPc.Exact (p : Fin n → Fin n) : CallPc n → Prop
  | .find f => f.Exact p
  | .merge m => m.Exact p

/-- the calls that have returned, the first one first -/
def St.history (s : St n T) : List (Call n × Ret n) := s.ret.reverse

/-- the union-find that has made the same calls -/
def St.twin (priority : Fin n → ℕ) (s : St n T) : DisjointSetUnion n × List (Call n × Ret n) :=
  (DisjointSetUnion.ofPriority priority).calls (s.history.map Prod.fst)

structure AloneInv (priority : Fin n → ℕ) (progs : Fin T → List (Call n)) (s : St n T) : Prop where
  inv : Inv priority progs s
  exact : ∀ t c pc, (s.thr t).cur = some (c, pc) → pc.Exact s.parent
  history : s.history = (s.twin priority).2
  roots : ∀ x, root s.parent x = root (s.twin priority).1.parent x

theorem CallPc.exact_start (p : Fin n → Fin n) (c : Call n) : c.start.Exact p := by
  cases c with
  | findRoot u => exact FindPc.exact_start p u
  | merge u v => trivial

theorem CallPc.exact_step (ho : Ordered (rank priority) p) {c : Call n} {pc pc' : CallPc n} (h : pc.Inv priority p c)
    (he : pc.Exact p) {o : Side} (hs : pc.step priority p o = (p', .inl pc')) : pc'.Exact p' := by
  cases pc with
  | find f =>
    simp only [CallPc.step] at hs
    rcases hst : f.step p o with ⟨q, f' | r⟩ <;> rw [hst] at hs <;> cases hs
    exact FindPc.exact_step he o hst
  | merge m =>
    simp only [CallPc.step] at hs
    rcases hst : m.step priority p o with ⟨q, m' | r⟩ <;> rw [hst] at hs <;> cases hs
    cases c with
    | findRoot u => exact h.elim
    | merge u v => exact MergePc.exact_step ho h he hst

/-- the returned result is that of the sequential union-find, and so are the roots behind the call -/
theorem CallPc.exact_return (ho : Ordered (rank priority) p) {d : DisjointSetUnion n} (hprio : d.priority = priority)
    (hroots : ∀ x, root p x = root d.parent x) {c : Call n} {pc : CallPc n} (h : pc.Inv priority p c) (he : pc.Exact p)
    {o : Side} {r : Ret n} (hs : pc.step priority p o = (p', .inr r)) :
    (d.call c).2 = r ∧ ∀ x, root p' x = root (d.call c).1.parent x := by
  cases pc with
  | find f =>
    cases c with
    | merge u v => exact h.elim
    | findRoot u =>
      simp only [CallPc.step] at hs
      rcases hst : f.step p o with ⟨q, f' | w⟩ <;> rw [hst] at hs <;> cases hs
      obtain ⟨rfl, hw⟩ := FindPc.root_of_finalLoad ho h (FindPc.Exact.finalLoad he) hst
      simp only [DisjointSetUnion.call, DisjointSetUnion.findRoot_snd, DisjointSetUnion.findRoot_root]
      exact ⟨by rw [hw, hroots u], hroots⟩
  | merge m =>
    cases c with
    | findRoot u => exact h.elim
    | merge u v =>
      simp only [CallPc.step] at hs
      rcases hst : m.step priority p o with ⟨q, m' | w⟩ <;> rw [hst] at hs <;> cases hs
      simp only [DisjointSetUnion.call]
      obtain ⟨q, hq, hqroot, hcase⟩ := d.merge_eq u v
      rw [← hroots, ← hroots] at hcase
      rcases MergePc.exact_return ho h he hst with ⟨rfl, rfl, hsame⟩ | ⟨a, b, rfl, hlt, hb, rfl, hab⟩
      · rcases hcase with ⟨-, hd⟩ | ⟨a, b, -, hne, -, -⟩
        · rw [hd]
          exact ⟨rfl, fun x => (hroots x).trans (hqroot x).symm⟩
        · exact absurd hsame hne
      · have hne : root p u ≠ root p v := by
          intro hsame
          rcases hab with ⟨rfl, rfl⟩ | ⟨rfl, rfl⟩ <;> rw [hsame] at hlt <;> exact lt_irrefl _ hlt
        rcases hcase with ⟨hsame, -⟩ | ⟨a', b', hlt', -, hab', hd⟩
        · exact absurd hsame hne
        -- the two roots are ordered by their ranks
        have hrank : rank priority b' < rank priority a' := by rwa [← hprio, ← hq]
        obtain ⟨rfl, rfl⟩ : a' = a ∧ b' = b := by
          rcases hab with ⟨rfl, rfl⟩ | ⟨rfl, rfl⟩ <;> rcases hab' with ⟨rfl, rfl⟩ | ⟨rfl, rfl⟩
          · exact ⟨rfl, rfl⟩
          · exact absurd hrank hlt.asymm
          · exact absurd hrank hlt.asymm
          · exact ⟨rfl, rfl⟩
        have hbq : q.parent b' = b' := by
          rw [q.fixed_iff, hqroot, ← hroots]
          exact root_of_fixed hb
        rw [hd]
        refine ⟨rfl, fun x => ?_⟩
        rw [DisjointSetUnion.link, Links.root_eq ho hb hlt, Links.root_eq q.ordered hbq hlt', hqroot, hqroot, ← hroots, ← hroots]

section step

variable {progs : Fin T → List (Call n)} {s s' : St n T}

theorem aloneInv_init (priority : Fin n → ℕ) (progs : Fin T → List (Call n)) : AloneInv priority progs (init progs) where
  inv := inv_init priority progs
  exact t c pc h := by cases h
  history := rfl
  roots x := rfl

theorem aloneInv_step (h : AloneInv priority progs s) {l : Fin T × Side} (hl : Solo s l) (hs : step priority s l = some s') :
    AloneInv priority progs s' := by
  obtain ⟨t, o⟩ := l
  have hinv := step_inv h.inv hs
  -- the other threads are in no call, before the step and after it
  have hother : ∀ {x : Thread n} {q : Fin n → Fin n}, (∀ c pc, x.cur = some (c, pc) → pc.Exact q) →
      ∀ t' c pc, (Function.update s.thr t x t').cur = some (c, pc) → pc.Exact q := by
    intro x q hx t' c pc hcur
    by_cases ht : t' = t
    · subst ht
      rw [Function.update_self] at hcur
      exact hx c pc hcur
    · rw [Function.update_of_ne ht, hl t' ht] at hcur
      cases hcur
  rcases step_cases hs with ⟨c, cs, hcur, htodo, rfl⟩ | ⟨c, pc, q, pc', hcur, hpc, rfl⟩ | ⟨c, pc, q, r, hcur, hpc, rfl⟩
  · refine ⟨hinv, hother fun c' pc' he => ?_, h.history, h.roots⟩
    cases he
    exact CallPc.exact_start s.parent c
  · refine ⟨hinv, hother fun c' pc'' he => ?_, h.history, fun x => ?_⟩
    · cases he
      exact CallPc.exact_step h.inv.ord (h.inv.calls t c pc hcur) (h.exact t c pc hcur) hpc
    · have hspec := CallPc.step_spec h.inv.ord (h.inv.calls t c pc hcur) o
      rw [hpc] at hspec
      exact (hspec.1.root_eq h.inv.ord x).trans (h.roots x)
  · have hprio : (s.twin priority).1.priority = priority := DisjointSetUnion.priority_calls _ _
    obtain ⟨hret, hroots⟩ := CallPc.exact_return h.inv.ord hprio h.roots (h.inv.calls t c pc hcur) (h.exact t c pc hcur) hpc
    have hhistory : St.history ⟨q, Function.update s.thr t ⟨(s.thr t).todo, none⟩, (c, r) :: s.ret⟩ = s.history ++ [(c, r)] :=
      List.reverse_cons
    have htwin : St.twin priority ⟨q, Function.update s.thr t ⟨(s.thr t).todo, none⟩, (c, r) :: s.ret⟩ =
        (((s.twin priority).1.call c).1, (s.twin priority).2 ++ [(c, ((s.twin priority).1.call c).2)]) := by
      rw [St.twin, hhistory, List.map_append, List.map_singleton, DisjointSetUnion.calls_append]
      rfl
    refine ⟨hinv, hother fun c' pc' he => (by cases he), ?_, ?_⟩
    · rw [htwin, hhistory, hret, ← h.history]
    · rw [htwin]
      exact hroots

end step

/-- **The two union-finds agree.** In every run in which no call overlaps another, whatever the order of the operands and
the spurious failures, the calls return what `DisjointSetUnion` returns for the same calls in the same order, and every
item has the root that it has there. -/
theorem alone_sequential (priority : Fin n → ℕ) (progs : Fin T → List (Call n)) {ls : List (Fin T × Side)} {s : St n T}
    (hsolo : Meets (step priority) Solo (init progs) ls) (hs : exec (step priority) (init progs) ls = some s) :
    s.history = ((DisjointSetUnion.ofPriority priority).calls (s.history.map Prod.fst)).2 ∧
      ∀ x, root s.parent x = root ((DisjointSetUnion.ofPriority priority).calls (s.history.map Prod.fst)).1.parent x := by
  have h := exec_invariant_of_meets (step priority) (I := AloneInv priority progs)
    (fun s l s' h hl hs => aloneInv_step h hl hs) (aloneInv_init priority progs) hsolo hs
  exact ⟨h.history, h.roots⟩

/-- thread 1 merges behind thread 0 -/
theorem alone_sequential_two : ∃ s, exec (step fun u : Fin 3 => u.val) (init twoMerges) twoMergesRun = some s ∧
    s.history.map Prod.fst = [.merge 0 1, .merge 1 2] ∧
    s.history = ((DisjointSetUnion.ofPriority fun u : Fin 3 => u.val).calls [.merge 0 1, .merge 1 2]).2 := by
  have hcalls : (exec (step fun u : Fin 3 => u.val) (init twoMerges) twoMergesRun).map (fun s => s.history.map Prod.fst) =
      some [.merge 0 1, .merge 1 2] := by decide +kernel
  obtain ⟨s, hs, he⟩ := Option.map_eq_some_iff.1 hcalls
  have h := (alone_sequential (fun u : Fin 3 => u.val) twoMerges (by decide +kernel) hs).1
  rw [he] at h
  exact ⟨s, hs, he, h⟩

end Dsu

end GraphStreamingCC
