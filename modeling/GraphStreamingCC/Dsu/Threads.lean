/-
Correctness of the concurrent union-find over all interleavings of any number of threads.

`Inv` ties the array to the record of finished calls: the array is an ordered forest, every call in progress knows what
`CallPc.Inv` says, the pairs whose merge returned true span exactly the sets of the array, and every finished merge has
its two items in one set. `ThreadInv` is its part about one thread. `step_inv` keeps it for every atomic operation of
every thread; `concurrentUnionFind` reads the guarantees off: order and acyclicity in every reachable state, halving
stores that change no set, and, when all calls have completed, sets = components of the merged pairs with the successful
merges as a spanning forest.
-/
import GraphStreamingCC.Core.SpanningForest
import GraphStreamingCC.Core.Threads
import GraphStreamingCC.Dsu.Invariant

namespace GraphStreamingCC.Dsu

open ParentForest SpanningForest Runs

variable {n T : ℕ} {priority : Fin n → ℕ} {p p' : Fin n → Fin n}

/-! ## Calls -/

/-- what a call in progress knows -/
def CallPc.Inv (priority : Fin n → ℕ) (p : Fin n → Fin n) : Call n → CallPc n → Prop
  | .findRoot u, .find f => f.Inv (rank priority) p u
  | .merge u v, .merge m => m.Inv priority p u v
  | _, _ => False

theorem CallPc.Inv.mono {c : Call n} {pc : CallPc n} (h : pc.Inv priority p c) (hg : Grows p p') :
    pc.Inv priority p' c := by
  cases c <;> cases pc
  · exact FindPc.Inv.mono h hg
  · exact h
  · exact h
  · exact MergePc.Inv.mono h hg

theorem CallPc.inv_start (priority : Fin n → ℕ) (p : Fin n → Fin n) (c : Call n) : c.start.Inv priority p c := by
  cases c with
  | findRoot u => exact FindPc.inv_start (rank priority) p u
  | merge u v => exact MergePc.inv_start priority p u v

/-- what a returned result says about the array before (`p`) and after (`p'`) the last operation of the call -/
def Returns (priority : Fin n → ℕ) (p p' : Fin n → Fin n) : Call n → Ret n → Prop
  | .findRoot u, .root r => Quiet (rank priority) p p' ∧ Same p' r u
  | .merge u v, .merge r =>
    r.merged = true ∧ Links (rank priority) p p' u v ∨
      r.merged = false ∧ Quiet (rank priority) p p' ∧ Same p' u v
  | _, _ => False

theorem CallPc.step_spec (ho : Ordered (rank priority) p) {c : Call n} {pc : CallPc n} (h : pc.Inv priority p c)
    (o : Side) : Sum.elim (fun pc' => Quiet (rank priority) p (pc.step priority p o).1 ∧
      pc'.Inv priority (pc.step priority p o).1 c) (fun r => Returns priority p (pc.step priority p o).1 c r)
      (pc.step priority p o).2 := by
  cases c <;> cases pc <;> try exact h.elim
  · rename_i u f
    have hf := FindPc.step_spec ho h o
    simp only [CallPc.step]
    rcases hs : f.step p o with ⟨q, f' | r⟩ <;> rw [hs] at hf <;> exact hf
  · rename_i u v m
    have hm := MergePc.step_spec ho h o
    simp only [CallPc.step]
    rcases hs : m.step priority p o with ⟨q, m' | r⟩ <;> rw [hs] at hm <;> exact hm

/-- the `find_root` a call is in, on its own or inside a merge -/
def CallPc.findPart : CallPc n → Option (FindPc n)
  | .find f => some f
  | .merge (.first _ _ _ f) => some f
  | .merge (.second _ _ _ f) => some f
  | _ => none

/-- the pair a call passes to `merge` -/
def Call.pair : Call n → Option (Fin n × Fin n)
  | .findRoot _ => none
  | .merge u v => some (u, v)

/-- the pair of a finished merge that returned true -/
def mergedPair : Call n × Ret n → Option (Fin n × Fin n)
  | (.merge u v, .merge r) => if r.merged then some (u, v) else none
  | _ => none

/-- the pairs whose merge returned true -/
def mergedPairs (ret : List (Call n × Ret n)) : List (Fin n × Fin n) := ret.filterMap mergedPair

/-- all pairs that the threads pass to `merge` -/
def passedPairs (progs : Fin T → List (Call n)) : List (Fin n × Fin n) :=
  (List.finRange T).flatMap fun t => (progs t).filterMap Call.pair

theorem mem_passedPairs {progs : Fin T → List (Call n)} {u v : Fin n} :
    (u, v) ∈ passedPairs progs ↔ ∃ t, .merge u v ∈ progs t := by
  simp only [passedPairs, List.mem_flatMap, List.mem_finRange, true_and, List.mem_filterMap]
  refine exists_congr fun t => ⟨?_, fun h => ⟨_, h, rfl⟩⟩
  rintro ⟨c, hc, he⟩
  cases c with
  | findRoot w => cases he
  | merge a b => cases he; exact hc

/-! ## The invariant of the machine -/

/-- the roots of an array -/
def roots (p : Fin n → Fin n) : Finset (Fin n) := Finset.univ.filter fun w => p w = w

structure Inv (priority : Fin n → ℕ) (progs : Fin T → List (Call n)) (s : St n T) : Prop where
  ord : Ordered (rank priority) s.parent
  calls : ∀ t c pc, (s.thr t).cur = some (c, pc) → pc.Inv priority s.parent c
  spans : Spans s.parent (pairGraph (mergedPairs s.ret))
  count : (mergedPairs s.ret).length + (roots s.parent).card = n
  /-- every finished merge has put its items into one set -/
  fin : ∀ u v r, (.merge u v, r) ∈ s.ret → Same s.parent u v
  /-- every call of a program is still to come, in progress or finished -/
  acc : ∀ t, ∀ c ∈ progs t, c ∈ (s.thr t).todo ∨ (∃ pc, (s.thr t).cur = some (c, pc)) ∨ ∃ r, (c, r) ∈ s.ret
  todo : ∀ t, ∀ c ∈ (s.thr t).todo, c ∈ progs t
  cur : ∀ t c pc, (s.thr t).cur = some (c, pc) → c ∈ progs t
  ret : ∀ c r, (c, r) ∈ s.ret → ∃ t, c ∈ progs t

theorem inv_init (priority : Fin n → ℕ) (progs : Fin T → List (Call n)) : Inv priority progs (init progs) where
  ord u hu := absurd rfl hu
  calls t c pc h := by cases h
  spans := by simpa [init, mergedPairs] using spans_init
  count := by simp [init, mergedPairs, roots]
  fin u v r h := by cases h
  acc t c hc := Or.inl hc
  todo t c hc := hc
  cur t c pc h := by cases h
  ret c r h := by cases h

/-- what one step of the machine does -/
theorem step_cases {s s' : St n T} {t : Fin T} {o : Side} (h : step priority s (t, o) = some s') :
    (∃ c cs, (s.thr t).cur = none ∧ (s.thr t).todo = c :: cs ∧
      s' = { s with thr := Function.update s.thr t ⟨cs, some (c, c.start)⟩ }) ∨
    (∃ c pc q pc', (s.thr t).cur = some (c, pc) ∧ pc.step priority s.parent o = (q, .inl pc') ∧
      s' = { s with parent := q, thr := Function.update s.thr t ⟨(s.thr t).todo, some (c, pc')⟩ }) ∨
    ∃ c pc q r, (s.thr t).cur = some (c, pc) ∧ pc.step priority s.parent o = (q, .inr r) ∧
      s' = ⟨q, Function.update s.thr t ⟨(s.thr t).todo, none⟩, (c, r) :: s.ret⟩ := by
  simp only [step] at h
  split at h
  · rename_i hcur
    split at h
    · cases h
    · rename_i c cs htodo; cases h; exact Or.inl ⟨c, cs, hcur, htodo, rfl⟩
  · rename_i c pc hcur
    split at h
    · rename_i q pc' hs; cases h; exact Or.inr (Or.inl ⟨c, pc, q, pc', hcur, hs, rfl⟩)
    · rename_i q r hs; cases h; exact Or.inr (Or.inr ⟨c, pc, q, r, hcur, hs, rfl⟩)

theorem Returns.grows {c : Call n} {r : Ret n} (ho : Ordered (rank priority) p) (h : Returns priority p p' c r) :
    Ordered (rank priority) p' ∧ Grows p p' := by
  cases c <;> cases r <;> try exact h.elim
  · exact ⟨h.1.ordered ho, h.1.grows ho⟩
  · rcases h with ⟨-, h⟩ | ⟨-, h, -⟩ <;> exact ⟨h.ordered ho, h.grows ho⟩

/-- a call that is not a successful merge leaves the sets alone -/
theorem Returns.quiet {c : Call n} {r : Ret n} (h : Returns priority p p' c r) (hm : mergedPair (c, r) = none) :
    Quiet (rank priority) p p' := by
  cases c <;> cases r <;> try exact h.elim
  · exact h.1
  · rcases h with ⟨ht, -⟩ | ⟨-, h, -⟩
    · simp [mergedPair, ht] at hm
    · exact h

theorem Returns.links {c : Call n} {r : Ret n} {u v : Fin n} (h : Returns priority p p' c r)
    (hm : mergedPair (c, r) = some (u, v)) : c = .merge u v ∧ Links (rank priority) p p' u v := by
  cases c <;> cases r <;> try exact h.elim
  · simp [mergedPair] at hm
  · rename_i a b r
    by_cases ht : r.merged = true
    · simp only [mergedPair, ht, if_true, Option.some.injEq, Prod.mk.injEq] at hm
      obtain ⟨rfl, rfl⟩ := hm
      rcases h with ⟨-, h⟩ | ⟨hf, -⟩
      · exact ⟨rfl, h⟩
      · rw [ht] at hf; cases hf
    · simp [mergedPair, ht] at hm

theorem Returns.same {u v : Fin n} {r : Ret n} (ho : Ordered (rank priority) p)
    (h : Returns priority p p' (.merge u v) r) : Same p' u v := by
  cases r with
  | root r => exact h.elim
  | merge r =>
    rcases h with ⟨-, h⟩ | ⟨-, -, h⟩
    · exact (h.same_iff ho u v).2 (Or.inr (Or.inl ⟨rfl, rfl⟩))
    · exact h

/-- the pairs and the forest after a call has returned -/
theorem Returns.spans {c : Call n} {r : Ret n} {rets : List (Call n × Ret n)} (ho : Ordered (rank priority) p)
    (h : Returns priority p p' c r) (hs : Spans p (pairGraph (mergedPairs rets)))
    (hc : (mergedPairs rets).length + (roots p).card = n) :
    Spans p' (pairGraph (mergedPairs ((c, r) :: rets))) ∧
      (mergedPairs ((c, r) :: rets)).length + (roots p').card = n := by
  cases hm : mergedPair (c, r) with
  | none =>
    have hq := h.quiet hm
    rw [mergedPairs, List.filterMap_cons_none hm]
    refine ⟨hs.quiet ho hq, ?_⟩
    rw [roots, hq.card_roots ho]; exact hc
  | some q =>
    obtain ⟨-, hl⟩ := h.links hm
    rw [mergedPairs, List.filterMap_cons_some hm, pairGraph_cons]
    refine ⟨hs.link ho hl, ?_⟩
    have := hl.card_roots
    simp only [roots, mergedPairs, List.length_cons] at hc ⊢
    omega

/-- what the invariant says of one thread -/
structure ThreadInv (priority : Fin n → ℕ) (prog : List (Call n)) (p : Fin n → Fin n) (ret : List (Call n × Ret n))
    (x : Thread n) : Prop where
  calls : ∀ c pc, x.cur = some (c, pc) → pc.Inv priority p c
  acc : ∀ c ∈ prog, c ∈ x.todo ∨ (∃ pc, x.cur = some (c, pc)) ∨ ∃ r, (c, r) ∈ ret
  todo : ∀ c ∈ x.todo, c ∈ prog
  cur : ∀ c pc, x.cur = some (c, pc) → c ∈ prog

theorem Inv.thread {progs : Fin T → List (Call n)} {s : St n T} (h : Inv priority progs s) (t : Fin T) :
    ThreadInv priority (progs t) s.parent s.ret (s.thr t) := ⟨h.calls t, h.acc t, h.todo t, h.cur t⟩

section thread

variable {prog : List (Call n)} {ret ret' : List (Call n × Ret n)} {x : Thread n} {c : Call n} {pc : CallPc n}

/-- another thread moves -/
theorem ThreadInv.mono (h : ThreadInv priority prog p ret x) (hg : Grows p p') (hret : ret ⊆ ret') :
    ThreadInv priority prog p' ret' x where
  calls c pc hcur := (h.calls c pc hcur).mono hg
  acc c hc := by
    rcases h.acc c hc with ha | ha | ⟨r, ha⟩
    · exact .inl ha
    · exact .inr (.inl ha)
    · exact .inr (.inr ⟨r, hret ha⟩)
  todo := h.todo
  cur := h.cur

/-- the next call begins -/
theorem ThreadInv.begins {cs : List (Call n)} (h : ThreadInv priority prog p ret x) (hcur : x.cur = none)
    (htodo : x.todo = c :: cs) : ThreadInv priority prog p ret ⟨cs, some (c, c.start)⟩ where
  calls c' pc' he := by
    cases he
    exact CallPc.inv_start priority p c
  acc c' hc' := by
    rcases h.acc c' hc' with ha | ⟨pc, ha⟩ | ha
    · rw [htodo] at ha
      rcases List.mem_cons.1 ha with rfl | ha
      · exact .inr (.inl ⟨_, rfl⟩)
      · exact .inl ha
    · rw [hcur] at ha
      cases ha
    · exact .inr (.inr ha)
  todo c' hc' := h.todo c' (htodo ▸ List.mem_cons_of_mem _ hc')
  cur c' pc' he := by
    cases he
    exact h.todo c (htodo ▸ List.mem_cons_self)

/-- the call goes on -/
theorem ThreadInv.goes_on {pc' : CallPc n} (h : ThreadInv priority prog p ret x) (hcur : x.cur = some (c, pc))
    (hpc : pc'.Inv priority p' c) : ThreadInv priority prog p' ret ⟨x.todo, some (c, pc')⟩ where
  calls c' pc'' he := by
    cases he
    exact hpc
  acc c' hc' := by
    rcases h.acc c' hc' with ha | ⟨pc, ha⟩ | ha
    · exact .inl ha
    · rw [hcur] at ha
      cases ha
      exact .inr (.inl ⟨_, rfl⟩)
    · exact .inr (.inr ha)
  todo := h.todo
  cur c' pc'' he := by
    cases he
    exact h.cur c pc hcur

/-- the call returns -/
theorem ThreadInv.returns {r : Ret n} (h : ThreadInv priority prog p ret x) (hcur : x.cur = some (c, pc)) :
    ThreadInv priority prog p' ((c, r) :: ret) ⟨x.todo, none⟩ where
  calls c' pc' he := by cases he
  acc c' hc' := by
    rcases h.acc c' hc' with ha | ⟨pc, ha⟩ | ⟨r', ha⟩
    · exact .inl ha
    · rw [hcur] at ha
      cases ha
      exact .inr (.inr ⟨r, List.mem_cons_self⟩)
    · exact .inr (.inr ⟨r', List.mem_cons_of_mem _ ha⟩)
  todo := h.todo
  cur c' pc' he := by cases he

end thread

theorem step_inv {progs : Fin T → List (Call n)} {s s' : St n T} {l : Fin T × Side} (h : Inv priority progs s)
    (hs : step priority s l = some s') : Inv priority progs s' := by
  obtain ⟨t, o⟩ := l
  rcases step_cases hs with ⟨c, cs, hcur, htodo, rfl⟩ | ⟨c, pc, q, pc', hcur, hpc, rfl⟩ | ⟨c, pc, q, r, hcur, hpc, rfl⟩
  · have hthr := Threads.forall_update h.thread ((h.thread t).begins hcur htodo)
    exact { h with
      calls := fun t' => (hthr t').calls
      acc := fun t' => (hthr t').acc
      todo := fun t' => (hthr t').todo
      cur := fun t' => (hthr t').cur }
  · have hspec := CallPc.step_spec h.ord (h.calls t c pc hcur) o
    rw [hpc] at hspec
    obtain ⟨hq, hinv⟩ := hspec
    have hg : Grows s.parent q := hq.grows h.ord
    have hthr := Threads.forall_update (fun t' => (h.thread t').mono hg (List.Subset.refl _)) ((h.thread t).goes_on hcur hinv)
    refine ⟨hq.ordered h.ord, fun t' => (hthr t').calls, h.spans.quiet h.ord hq, ?_, fun u v r hr => hg.same _ _ (h.fin u v r hr),
      fun t' => (hthr t').acc, fun t' => (hthr t').todo, fun t' => (hthr t').cur, h.ret⟩
    rw [roots, hq.card_roots h.ord]
    exact h.count
  · have hret := CallPc.step_spec h.ord (h.calls t c pc hcur) o
    rw [hpc] at hret
    obtain ⟨ho', hg⟩ := Returns.grows h.ord hret
    obtain ⟨hspans, hcount⟩ := Returns.spans h.ord hret h.spans h.count
    have hthr := Threads.forall_update (fun t' => (h.thread t').mono hg (List.subset_cons_self (c, r) s.ret))
      ((h.thread t).returns hcur)
    refine ⟨ho', fun t' => (hthr t').calls, hspans, hcount, fun u v r' hr' => ?_, fun t' => (hthr t').acc, fun t' => (hthr t').todo,
      fun t' => (hthr t').cur, fun c' r' hr' => ?_⟩
    · rcases List.mem_cons.1 hr' with hr' | hr'
      · cases hr'
        exact Returns.same h.ord hret
      · exact hg.same _ _ (h.fin u v r' hr')
    · rcases List.mem_cons.1 hr' with hr' | hr'
      · cases hr'
        exact ⟨t, h.cur t c pc hcur⟩
      · exact h.ret c' r' hr'

/-- **Every reachable state satisfies the invariant.** -/
theorem reached_inv {progs : Fin T → List (Call n)} {s : St n T}
    (h : Reached (step priority) (init progs) s) : Inv priority progs s :=
  h.invariant _ (fun _ _ _ hi hs => step_inv hi hs) (inv_init priority progs)

/-! ## The guarantees -/

/-- the store of a halved parent is an operation inside `find_root`: the call goes on -/
theorem CallPc.step_store (priority : Fin n → ℕ) (p : Fin n → Fin n) {pc : CallPc n} {u g : Fin n}
    (h : pc.findPart = some (.store u g)) (o : Side) :
    ∃ pc', pc.step priority p o = (Function.update p u g, .inl pc') := by
  unfold CallPc.findPart at h
  split at h <;> cases h <;> exact ⟨_, rfl⟩

/-- halving stores change no set -/
theorem store_quiet {progs : Fin T → List (Call n)} {s s' : St n T} (h : Inv priority progs s) {t : Fin T} {o : Side}
    {c : Call n} {pc : CallPc n} {u g : Fin n} (hcur : (s.thr t).cur = some (c, pc))
    (hpc : pc.findPart = some (.store u g)) (hs : step priority s (t, o) = some s') (x y : Fin n) :
    Same s'.parent x y ↔ Same s.parent x y := by
  obtain ⟨pc', hst⟩ := CallPc.step_store priority s.parent hpc o
  have hspec := CallPc.step_spec h.ord (h.calls t c pc hcur) o
  simp only [step, hcur, hst, Option.some.injEq] at hs
  rw [hst] at hspec
  rw [← hs]
  exact hspec.1.same_iff h.ord x y

/-- a merge that returns false has found its two items in one set -/
theorem unmerged_same {progs : Fin T → List (Call n)} {s s' : St n T} (h : Inv priority progs s) {l : Fin T × Side}
    {u v : Fin n} {r : DSUMergeRet} (hs : step priority s l = some s')
    (hr : s'.ret = (.merge u v, .merge r) :: s.ret) (hf : r.merged = false) : Same s.parent u v := by
  obtain ⟨t, o⟩ := l
  rcases step_cases hs with ⟨c, cs, -, -, rfl⟩ | ⟨c, pc, q, pc', -, -, rfl⟩ | ⟨c, pc, q, r', hcur, hpc, rfl⟩
  · exact absurd hr.symm (List.cons_ne_self _ _)
  · exact absurd hr.symm (List.cons_ne_self _ _)
  · simp only [List.cons.injEq, and_true] at hr
    cases hr
    have hret := CallPc.step_spec h.ord (h.calls t _ pc hcur) o
    rw [hpc] at hret
    rcases hret with ⟨ht, -⟩ | ⟨-, hq, hsame⟩
    · rw [hf] at ht; cases ht
    · exact (hq.same_iff h.ord u v).1 hsame

/-- once all calls have completed, the successful merges are a spanning forest of the merged pairs -/
theorem done_forest {progs : Fin T → List (Call n)} {s : St n T} (h : Inv priority progs s) (hd : Done s) :
    IsSpanningForest (pairGraph (mergedPairs s.ret)) (pairGraph (passedPairs progs)) where
  le x y hxy := by
    have hmem : ∀ a b, (a, b) ∈ mergedPairs s.ret → (a, b) ∈ passedPairs progs := by
      intro a b hab
      obtain ⟨⟨c, r⟩, hcr, hm⟩ := List.mem_filterMap.1 hab
      cases c with
      | findRoot w => cases hm
      | merge a' b' =>
        cases r with
        | root w => cases hm
        | merge r =>
          simp only [mergedPair] at hm
          split_ifs at hm
          cases hm
          exact mem_passedPairs.2 (h.ret _ _ hcr)
    rw [pairGraph_adj] at hxy ⊢
    exact ⟨hxy.1, hxy.2.imp (hmem x y) (hmem y x)⟩
  acyclic := h.spans.acyclic
  spans u v := by
    have hfin : ∀ a b, (a, b) ∈ passedPairs progs → Same s.parent a b := by
      intro a b hab
      obtain ⟨t, ht⟩ := mem_passedPairs.1 hab
      rcases h.acc t _ ht with ha | ⟨pc, ha⟩ | ⟨r, ha⟩
      · rw [(hd t).2] at ha; cases ha
      · rw [(hd t).1] at ha; cases ha
      · exact h.fin a b r ha
    refine reachable_of_adj fun x y hxy => (h.spans.reach x y).2 ?_
    exact (pairGraph_adj.1 hxy).2.elim (hfin x y) fun hyx => (hfin y x hyx).symm

/-- **Concurrent union-find.** In every state that any interleaving of any threads reaches: a non-root has a parent that
is greater in the order (priority, then smaller id), so parent chains have no cycle and end in a root; a halving store
changes no set; a merge returns false only for two items of one set. When all calls have completed, two items have the
same root exactly if the pairs passed to merge connect them, and the pairs whose merge returned true are a spanning
forest of those pairs, one pair for each root that is missing. -/
theorem concurrentUnionFind (priority : Fin n → ℕ) (progs : Fin T → List (Call n)) (s : St n T)
    (hs : Reached (step priority) (init progs) s) :
    (∀ u, s.parent u ≠ u →
      priority u < priority (s.parent u) ∨ priority u = priority (s.parent u) ∧ s.parent u < u) ∧
    (∀ u k, 0 < k → s.parent^[k] u = u → s.parent u = u) ∧
    (∀ u, s.parent (root s.parent u) = root s.parent u) ∧
    (∀ t o s' c pc u g, (s.thr t).cur = some (c, pc) → pc.findPart = some (.store u g) →
      step priority s (t, o) = some s' → ∀ x y, Same s'.parent x y ↔ Same s.parent x y) ∧
    (∀ l s' u v r, step priority s l = some s' → s'.ret = (.merge u v, .merge r) :: s.ret → r.merged = false →
      Same s.parent u v) ∧
    (Done s →
      (∀ u v, Same s.parent u v ↔ (pairGraph (passedPairs progs)).Reachable u v) ∧
      IsSpanningForest (pairGraph (mergedPairs s.ret)) (pairGraph (passedPairs progs)) ∧
      (mergedPairs s.ret).length + (roots s.parent).card = n) := by
  have h := reached_inv hs
  refine ⟨fun u hu => rank_lt_iff.1 (h.ord u hu), fun u k hk hc => h.ord.acyclic hk hc, h.ord.root_fixed,
    fun t o s' c pc u g hcur hpc hst => store_quiet h hcur hpc hst,
    fun l s' u v r hst hr hf => unmerged_same h hst hr hf, fun hd => ?_⟩
  have hforest := done_forest h hd
  exact ⟨fun u v => by rw [← h.spans.reach, hforest.reachable_iff], hforest, h.count⟩

/-- two threads, one merging 0 and 1, the other 1 and 2 -/
def twoMerges : Fin 2 → List (Call 3) := ![[.merge 0 1], [.merge 1 2]]

/-- the run in which thread 0 completes its merge, and then thread 1 -/
def twoMergesRun : List (Fin 2 × Side) :=
  List.replicate 11 (Threads.fst, .left) ++ List.replicate 11 (Threads.snd, .left)

theorem concurrentUnionFind_two :
    ∃ s, Reached (step fun u : Fin 3 => u.val) (init twoMerges) s ∧ Done s ∧ mergedPairs s.ret = [(1, 2), (0, 1)] ∧
      (∀ u v, Same s.parent u v ↔ (pairGraph (passedPairs twoMerges)).Reachable u v) := by
  obtain ⟨s, hs⟩ : ∃ s, exec (step fun u : Fin 3 => u.val) (init twoMerges) twoMergesRun = some s := ⟨_, rfl⟩
  have hr : Reached (step fun u : Fin 3 => u.val) (init twoMerges) s := ⟨_, hs⟩
  have hend : Done s ∧ mergedPairs s.ret = [(1, 2), (0, 1)] := by
    cases hs
    exact ⟨by unfold Done; decide, by decide⟩
  exact ⟨s, hr, hend.1, hend.2, ((concurrentUnionFind _ _ s hr).2.2.2.2.2 hend.1).1⟩

end GraphStreamingCC.Dsu
