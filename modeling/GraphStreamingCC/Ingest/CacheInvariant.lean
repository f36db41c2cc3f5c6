/-
What the eager union-find keeps while updates run.

`Cached`: the forest, with the edges of successful merges that are still to be inserted, spans exactly the sets of the
union-find; its edges are present in the graph of all updates seen so far; and every edge of that graph joins vertices of
one set. An update is seen at the step that decides what it is: a successful merge inserts an edge that was absent, a
failed merge without a forest edge toggles an edge inside a set, a failed merge with one gives the cache up, and so does
an update that finds it given up. The lock of the smaller end point keeps two updates of one edge apart.

`Inv` adds who holds which lock, that the two validity flags agree when no update runs, and what a query in progress
knows; `step_inv` keeps it for every step.
-/
import Mathlib.Algebra.BigOperators.Pi
import GraphStreamingCC.Core.Parity
import GraphStreamingCC.Core.SpanningForest
import GraphStreamingCC.Core.Threads
import GraphStreamingCC.Dsu.Invariant
import GraphStreamingCC.Ingest.EagerDsu

namespace GraphStreamingCC.Eager

open Dsu ParentForest SpanningForest Parity Runs

variable {n T : ℕ} {priority : Fin n → ℕ} {p p' : Fin n → Fin n}

/-! ## Calls of `pre_insert` -/

/-- what a call knows -/
def InsertPc.Inv (priority : Fin n → ℕ) (p : Fin n → Fin n) (src dst : Fin n) : InsertPc n → Prop
  | .merge m => m.Inv priority p src dst
  | .insert => src ≠ dst
  | .find => Same p src dst
  | _ => True

/-- the call is inside its critical section -/
def InsertPc.locked : InsertPc n → Bool
  | .testValid | .lock => false
  | _ => true

/-- what the call is about to do has not been taken account of yet -/
def InsertPc.unseen : InsertPc n → Bool
  | .testValid | .lock | .merge _ | .find | .clearValid => true
  | _ => false

theorem InsertPc.Inv.mono {src dst : Fin n} {pc : InsertPc n} (h : pc.Inv priority p src dst) (hg : Grows p p') :
    pc.Inv priority p' src dst := by
  cases pc with
  | merge m => exact MergePc.Inv.mono h hg
  | find => exact hg.same _ _ h
  | insert => exact h
  | testValid | lock | clearValid | clearShared | unlock => trivial

/-- what is known of the call of a thread, if it is in one -/
def CallInv (priority : Fin n → ℕ) (p : Fin n → Fin n) (x : Option (PreInsert n)) : Prop :=
  ∀ c ∈ x, c.src ≤ c.dst ∧ c.pc.Inv priority p c.src c.dst

/-- the calls in progress and the locks they hold -/
structure Calls (priority : Fin n → ℕ) (p : Fin n → Fin n) (mtx : Fin n → Option (Fin T))
    (thr : Fin T → Option (PreInsert n)) : Prop where
  call : ∀ t, CallInv priority p (thr t)
  mutex : ∀ t v, mtx v = some t ↔ ∃ c ∈ thr t, c.src = v ∧ c.pc.locked = true

variable {mtx : Fin n → Option (Fin T)} {thr : Fin T → Option (PreInsert n)} {t : Fin T} {c : PreInsert n}

theorem Calls.mono (h : Calls priority p mtx thr) (hg : Grows p p') : Calls priority p' mtx thr :=
  ⟨fun t c hc => ⟨(h.call t c hc).1, (h.call t c hc).2.mono hg⟩, h.mutex⟩

/-- a thread moves and holds the mutexes that it held -/
theorem Calls.move (h : Calls priority p mtx thr) {x : Option (PreInsert n)} (hx : CallInv priority p x)
    (hheld : ∀ v, (∃ c ∈ x, c.src = v ∧ c.pc.locked = true) ↔ ∃ c ∈ thr t, c.src = v ∧ c.pc.locked = true) :
    Calls priority p mtx (Function.update thr t x) := by
  refine ⟨Threads.forall_update (Q := fun _ => CallInv priority p) h.call hx, fun t' v => ?_⟩
  rw [h.mutex]
  exact (iff_of_eq (Threads.apply_update (fun x : Option (PreInsert n) => ∃ c ∈ x, c.src = v ∧ c.pc.locked = true)
    (propext (hheld v)) t')).symm

/-- a thread goes on inside or outside its critical section -/
theorem Calls.goto (h : Calls priority p mtx thr) (hc : thr t = some c) {pc : InsertPc n}
    (hpc : pc.Inv priority p c.src c.dst) (hl : pc.locked = c.pc.locked) :
    Calls priority p mtx (Function.update thr t (some { c with pc := pc })) := by
  refine h.move (fun c' hc' => ?_) fun v => by simp [hc, hl]
  cases hc'
  exact ⟨(h.call t c hc).1, hpc⟩

theorem Calls.lock (h : Calls priority p mtx thr) (hc : thr t = some c) (hl : c.pc.locked = false)
    (hfree : mtx c.src = none) {pc : InsertPc n} (hpc : pc.Inv priority p c.src c.dst) (hl' : pc.locked = true) :
    Calls priority p (Function.update mtx c.src (some t)) (Function.update thr t (some { c with pc := pc })) := by
  refine ⟨?_, fun t' v => ?_⟩
  · refine Threads.forall_update (Q := fun _ => CallInv priority p) h.call fun c' hc' => ?_
    cases hc'
    exact ⟨(h.call t c hc).1, hpc⟩
  · have hmut := h.mutex t' v
    by_cases hv : v = c.src
    · subst hv
      rw [hfree] at hmut
      by_cases ht : t' = t
      · subst ht
        simp [hl']
      · rw [Function.update_self, Function.update_of_ne ht, ← hmut]
        simp [Ne.symm ht]
    · rw [Function.update_of_ne hv, hmut]
      by_cases ht : t' = t
      · subst ht
        simp [hc, hl, Ne.symm hv]
      · rw [Function.update_of_ne ht]

/-- a call ends outside its critical section -/
theorem Calls.leave (h : Calls priority p mtx thr) (hc : thr t = some c) (hl : c.pc.locked = false) :
    Calls priority p mtx (Function.update thr t none) :=
  h.move (fun c' hc' => by cases hc') fun v => by simp [hc, hl]

theorem Calls.unlock (h : Calls priority p mtx thr) (hc : thr t = some c) (hl : c.pc.locked = true) :
    Calls priority p (Function.update mtx c.src none) (Function.update thr t none) := by
  refine ⟨?_, fun t' v => ?_⟩
  · exact Threads.forall_update (Q := fun _ => CallInv priority p) h.call fun c' hc' => by cases hc'
  · have hown : mtx c.src = some t := (h.mutex t c.src).2 ⟨c, hc, rfl, hl⟩
    have hmut := h.mutex t' v
    by_cases hv : v = c.src
    · subst hv
      by_cases ht : t' = t
      · subst ht
        simp
      · rw [Function.update_self, Function.update_of_ne ht, ← hmut, hown]
        simp [Ne.symm ht]
    · rw [Function.update_of_ne hv, hmut]
      by_cases ht : t' = t
      · subst ht
        simp [hc, Ne.symm hv]
      · rw [Function.update_of_ne ht]

/-- a call begins -/
theorem Calls.start (h : Calls priority p mtx thr) (hc : thr t = none) {u v : Fin n} (huv : u ≤ v) :
    Calls priority p mtx (Function.update thr t (some ⟨u, v, .testValid⟩)) := by
  refine h.move (fun c' hc' => ?_) fun w => by simp [hc, InsertPc.locked]
  cases hc'
  exact ⟨huv, trivial⟩

/-! ## The forest and the graph of the updates -/

/-- thread t is about to insert dst into `spanning_forest[src]` -/
def Inserting (x : Option (PreInsert n)) (src dst : Fin n) : Prop := ∃ c ∈ x, c.pc = .insert ∧ c.src = src ∧ c.dst = dst

/-- the forest, with the edges that successful merges are about to insert -/
def forestGraph (forest : Fin n → Finset (Fin n)) (thr : Fin T → Option (PreInsert n)) : SimpleGraph (Fin n) :=
  SimpleGraph.fromRel fun x y => y ∈ forest x ∨ ∃ t, Inserting (thr t) x y

variable {forest : Fin n → Finset (Fin n)}

theorem forestGraph_adj {x y : Fin n} : (forestGraph forest thr).Adj x y ↔
    x ≠ y ∧ ((y ∈ forest x ∨ ∃ t, Inserting (thr t) x y) ∨ x ∈ forest y ∨ ∃ t, Inserting (thr t) y x) :=
  SimpleGraph.fromRel_adj _ _ _

theorem inserting_update {d : Option (PreInsert n)} {x y : Fin n} :
    (∃ t', Inserting (Function.update thr t d t') x y) ↔
      Inserting d x y ∨ ∃ t', t' ≠ t ∧ Inserting (thr t') x y := by
  constructor
  · rintro ⟨t', h⟩
    by_cases ht : t' = t
    · subst ht
      rw [Function.update_self] at h
      exact .inl h
    · rw [Function.update_of_ne ht] at h
      exact .inr ⟨t', ht, h⟩
  · rintro (h | ⟨t', ht, h⟩)
    · exact ⟨t, by rwa [Function.update_self]⟩
    · exact ⟨t', by rwa [Function.update_of_ne ht]⟩

theorem inserting_split (t : Fin T) {x y : Fin n} :
    (∃ t', Inserting (thr t') x y) ↔ Inserting (thr t) x y ∨ ∃ t', t' ≠ t ∧ Inserting (thr t') x y := by
  conv_lhs => rw [← Function.update_eq_self t thr]
  exact inserting_update

theorem not_inserting {x : Option (PreInsert n)} (h : ∀ c ∈ x, c.pc ≠ .insert) (u v : Fin n) : ¬ Inserting x u v := by
  rintro ⟨c, hc, hpc, -⟩
  exact h c hc hpc

/-- a thread that neither is about to insert nor will be does not matter -/
theorem forestGraph_update {d : Option (PreInsert n)} (hc : ∀ c ∈ thr t, c.pc ≠ .insert) (hd : ∀ c ∈ d, c.pc ≠ .insert) :
    forestGraph forest (Function.update thr t d) = forestGraph forest thr := by
  have h : ∀ x y, (∃ t', Inserting (Function.update thr t d t') x y) ↔ ∃ t', Inserting (thr t') x y := by
    intro x y
    rw [inserting_update, inserting_split t]
    simp only [not_inserting hc, not_inserting hd]
  ext x y
  simp only [forestGraph_adj, h]

/-- a successful merge adds its edge -/
theorem forestGraph_merged (hc : thr t = some c) (hpc : c.pc ≠ .insert) :
    forestGraph forest (Function.update thr t (some { c with pc := .insert })) =
      forestGraph forest thr ⊔ SimpleGraph.edge c.src c.dst := by
  have hold : ∀ c' ∈ thr t, c'.pc ≠ .insert := by
    intro c' hc'
    rw [hc] at hc'
    cases hc'
    exact hpc
  have hnew : ∀ x y, Inserting (some { c with pc := .insert }) x y ↔ c.src = x ∧ c.dst = y := by
    intro x y
    simp [Inserting]
  have h : ∀ x y, (∃ t', Inserting (Function.update thr t (some { c with pc := .insert }) t') x y) ↔
      (c.src = x ∧ c.dst = y) ∨ ∃ t', Inserting (thr t') x y := by
    intro x y
    rw [inserting_update, inserting_split t, hnew]
    simp only [not_inserting hold, false_or]
  ext x y
  simp only [SimpleGraph.sup_adj, SimpleGraph.edge_adj, forestGraph_adj, h]
  grind

/-- the insertion itself changes nothing -/
theorem forestGraph_insert (hc : thr t = some c) (hpc : c.pc = .insert) :
    forestGraph (Function.update forest c.src (insert c.dst (forest c.src)))
      (Function.update thr t (some { c with pc := .unlock })) = forestGraph forest thr := by
  have hold : ∀ x y, Inserting (thr t) x y ↔ c.src = x ∧ c.dst = y := by
    intro x y
    simp [Inserting, hc, hpc]
  have hnew : ∀ c' ∈ some { c with pc := .unlock }, c'.pc ≠ .insert := by
    intro c' hc'
    cases hc'
    simp
  have hmem : ∀ x y, y ∈ Function.update forest c.src (insert c.dst (forest c.src)) x ↔
      y ∈ forest x ∨ c.src = x ∧ c.dst = y := by
    intro x y
    by_cases hx : x = c.src
    · subst hx
      simp [eq_comm, or_comm]
    · simp [Function.update_of_ne hx, Ne.symm hx]
  have hrest : ∀ x y, (∃ t', Inserting (Function.update thr t (some { c with pc := .unlock }) t') x y) ↔
      ∃ t', t' ≠ t ∧ Inserting (thr t') x y := by
    intro x y
    rw [inserting_update]
    simp only [not_inserting hnew, false_or]
  have hall : ∀ x y, (∃ t', Inserting (thr t') x y) ↔
      (c.src = x ∧ c.dst = y) ∨ ∃ t', t' ≠ t ∧ Inserting (thr t') x y := by
    intro x y
    rw [inserting_split t, hold]
  ext x y
  simp only [forestGraph_adj, hrest, hall, hmem, or_assoc]

/-- the union-find and the forest F answer for the graph of the updates seen -/
structure Cached (p : Fin n → Fin n) (F : SimpleGraph (Fin n)) (seen : List (Fin n × Fin n)) : Prop where
  spans : Spans p F
  le : F ≤ oddGraph seen
  same : ∀ x y, (oddGraph seen).Adj x y → Same p x y

section cached

variable {F : SimpleGraph (Fin n)} {seen : List (Fin n × Fin n)} {u v : Fin n}

theorem Cached.quiet (h : Cached p F seen) (ho : Ordered (rank priority) p) (hq : Quiet (rank priority) p p') :
    Cached p' F seen :=
  ⟨h.spans.quiet ho hq, h.le, fun x y hxy => (hq.same_iff ho x y).2 (h.same x y hxy)⟩

/-- a successful merge: the edge was absent, since it joins two sets -/
theorem Cached.link (h : Cached p F seen) (ho : Ordered (rank priority) p) (hl : Links (rank priority) p p' u v) :
    Cached p' (F ⊔ SimpleGraph.edge u v) ((u, v) :: seen) := by
  have hodd := oddGraph_cons_of_not_adj fun hadj => hl.not_same ho (h.same u v hadj)
  refine ⟨h.spans.link ho hl, ?_, fun x y hxy => (hl.same_iff ho x y).2 ?_⟩
  · rw [hodd]
    exact sup_le_sup_right h.le _
  · rw [hodd, SimpleGraph.sup_adj, SimpleGraph.edge_adj] at hxy
    rcases hxy with hxy | ⟨⟨rfl, rfl⟩ | ⟨rfl, rfl⟩, -⟩
    · exact .inl (h.same x y hxy)
    · exact .inr (.inl ⟨rfl, rfl⟩)
    · exact .inr (.inr ⟨rfl, rfl⟩)

/-- toggling an edge inside a set that is no forest edge -/
theorem Cached.toggle (h : Cached p F seen) (hF : ¬ F.Adj u v) (hs : Same p u v) : Cached p F ((u, v) :: seen) := by
  refine ⟨h.spans, fun x y hxy => ?_, fun x y hxy => ?_⟩
  · have hne : s(x, y) ≠ s(u, v) := by
      intro he
      rcases Sym2.eq_iff.1 he with ⟨rfl, rfl⟩ | ⟨rfl, rfl⟩
      · exact hF hxy
      · exact hF hxy.symm
    exact (oddGraph_cons_of_ne hne).2 (h.le hxy)
  · by_cases he : s(x, y) = s(u, v)
    · rcases Sym2.eq_iff.1 he with ⟨rfl, rfl⟩ | ⟨rfl, rfl⟩
      · exact hs
      · exact hs.symm
    · exact h.same x y ((oddGraph_cons_of_ne he).1 hxy)

end cached

/-- a failed merge that finds no forest edge: nobody else is about to insert this edge, since its lock is held -/
theorem Calls.not_forest (h : Calls priority p mtx thr) (ho : ∀ v, ∀ w ∈ forest v, v < w) (hc : thr t = some c)
    (hpc : c.pc = .find) (hf : c.dst ∉ forest c.src) : ¬ (forestGraph forest thr).Adj c.src c.dst := by
  have hle := (h.call t c hc).1
  rw [forestGraph_adj]
  rintro ⟨hne, (hm | ⟨t', c', hc', hins, hsrc, -⟩) | hm | ⟨t', c', hc', hins, hsrc, hdst⟩⟩
  · exact hf hm
  · have hown : mtx c.src = some t := (h.mutex t c.src).2 ⟨c, hc, rfl, by rw [hpc]; rfl⟩
    have hown' : mtx c.src = some t' := (h.mutex t' c.src).2 ⟨c', hc', hsrc, by rw [hins]; rfl⟩
    rw [hown] at hown'
    cases hown'
    rw [hc] at hc'
    cases hc'
    rw [hpc] at hins
    cases hins
  · exact absurd hle (ho _ _ hm).not_ge
  · have := (h.call t' c' hc').1
    rw [hsrc, hdst] at this
    exact hne (le_antisymm hle this)

/-! ## The invariant -/

/-- the edge that a call has still to take account of -/
def owed (x : Option (PreInsert n)) : Multiset (Sym2 (Fin n)) :=
  x.elim 0 fun c => if c.pc.unseen then {s(c.src, c.dst)} else 0

/-- what the `find_root` calls of a query know -/
def QueryPc.Inv (priority : Fin n → ℕ) (p : Fin n → Fin n) : QueryPc n T → Prop
  | .team _ thr _ => ∀ t, ∀ x ∈ (thr t).cur, x.2.Inv (rank priority) p x.1
  | .first o a b f => f.Inv (rank priority) p (pick o a b)
  | .second o a b _ f => f.Inv (rank priority) p (pick o.other a b)
  | _ => True

/-- the query reads its answer off the DSU -/
def QueryPc.usesDsu : QueryPc n T → Bool
  | .ready _ | .team _ _ _ | .first _ _ _ _ | .second _ _ _ _ _ => true
  | _ => false

/-- thread t is not about to clear the shared flag -/
def NotClearing (x : Option (PreInsert n)) : Prop := ∀ c ∈ x, c.pc ≠ .clearShared

/-- the two validity flags differ only while a thread is about to clear the shared one -/
structure Flags (dsuValid sharedDsuValid : Bool) (thr : Fin T → Option (PreInsert n)) : Prop where
  valid : dsuValid = true → sharedDsuValid = true ∧ ∀ t, NotClearing (thr t)
  shared : sharedDsuValid = true → dsuValid = true ∨ ∃ t, ¬ NotClearing (thr t)

theorem Flags.update {v sh : Bool} (h : Flags v sh thr) (ht : NotClearing (thr t)) {d : Option (PreInsert n)}
    (hd : NotClearing d) : Flags v sh (Function.update thr t d) := by
  refine ⟨fun hv => ⟨(h.valid hv).1, Threads.forall_update (Q := fun _ => NotClearing) (h.valid hv).2 hd⟩, fun hsh => ?_⟩
  refine (h.shared hsh).imp_right fun ⟨t', ht'⟩ => ⟨t', ?_⟩
  have hne : t' ≠ t := by
    rintro rfl
    exact ht' ht
  rwa [Function.update_of_ne hne]

structure Inv (priority : Fin n → ℕ) (s : St n T) : Prop where
  ord : Ordered (rank priority) s.parent
  calls : Calls priority s.parent s.mtx s.thr
  oriented : ∀ v, ∀ w ∈ s.spanningForest v, v < w
  count : (s.updates.map pairEdge : Multiset (Sym2 (Fin n))) = s.seen.map pairEdge + ∑ t, owed (s.thr t)
  cached : s.dsuValid = true → Cached s.parent (forestGraph s.spanningForest s.thr) s.seen
  flags : Flags s.dsuValid s.sharedDsuValid s.thr
  alone : s.query.free = false → ∀ t, s.thr t = none
  busy : s.query.usesDsu = true → s.dsuValid = true
  query : s.query.Inv priority s.parent

theorem forestGraph_init : forestGraph (fun _ => ∅) (fun _ : Fin T => none) = (⊥ : SimpleGraph (Fin n)) := by
  ext x y
  simp [forestGraph_adj, Inserting]

theorem inv_init (priority : Fin n → ℕ) : Inv priority (init n T) where
  ord u hu := absurd rfl hu
  calls := ⟨fun t c hc => (by cases hc), fun t v => by simp [init]⟩
  oriented v w hw := by simp [init] at hw
  count := by simp [init, owed]
  cached _ := by
    refine ⟨?_, ?_, fun x y hxy => ?_⟩
    · rw [show forestGraph (init n T).spanningForest (init n T).thr = ⊥ from forestGraph_init]
      exact spans_init
    · rw [show forestGraph (init n T).spanningForest (init n T).thr = ⊥ from forestGraph_init]
      exact bot_le
    · simp [init, oddGraph_nil] at hxy
  flags := ⟨fun _ => ⟨rfl, fun t c hc => (by cases hc)⟩, fun _ => .inl rfl⟩
  alone h := by cases h
  busy h := by cases h
  query := trivial

variable {s s' : St n T}

/-- what a call owes, when thread t moves on -/
theorem sum_owed (thr : Fin T → Option (PreInsert n)) (t : Fin T) (d : Option (PreInsert n)) :
    ∑ t', owed (Function.update thr t d t') + owed (thr t) = ∑ t', owed (thr t') + owed d :=
  Threads.sum_update owed thr t d

/-- the account after a step of thread t that sees the edges `new` -/
theorem count_step {updates seen : List (Fin n × Fin n)} (new : Multiset (Sym2 (Fin n))) {d : Option (PreInsert n)}
    (h : (updates.map pairEdge : Multiset (Sym2 (Fin n))) = seen.map pairEdge + ∑ t, owed (thr t))
    (hd : owed (thr t) = new + owed d) :
    (updates.map pairEdge : Multiset (Sym2 (Fin n))) =
      new + seen.map pairEdge + ∑ t', owed (Function.update thr t d t') := by
  have hsum := sum_owed thr t d
  refine add_right_cancel (b := owed (thr t)) ?_
  calc _ = ((seen.map pairEdge : Multiset (Sym2 (Fin n))) + ∑ t, owed (thr t)) + owed (thr t) := by rw [h]
    _ = seen.map pairEdge + (∑ t, owed (thr t) + owed d) + new := by rw [hd]; abel
    _ = _ := by rw [← hsum]; abel

/-- while an update runs, no query does -/
theorem Inv.free (h : Inv priority s) {t : Fin T} {c : PreInsert n} (hc : s.thr t = some c) : s.query.free = true := by
  by_contra hf
  rw [h.alone (by simpa using hf) t] at hc
  cases hc

/-- a query that is not running is where it was -/
theorem QueryPc.inv_of_free {q : QueryPc n T} (h : q.free = true) (priority : Fin n → ℕ) (p : Fin n → Fin n) :
    q.Inv priority p := by
  cases q <;> trivial

theorem QueryPc.usesDsu_of_free {q : QueryPc n T} (h : q.free = true) : q.usesDsu = false := by
  cases q <;> first | rfl | exact absurd h (by simp [QueryPc.free])

/-! ## One step -/

/-- the fields of the invariant that a step of an update cannot spoil, given the rest -/
theorem Inv.of_thread (h : Inv priority s) {t : Fin T} {c : PreInsert n} (hc : s.thr t = some c)
    (hquery : s'.query = s.query) (ord : Ordered (rank priority) s'.parent)
    (calls : Calls priority s'.parent s'.mtx s'.thr) (oriented : ∀ v, ∀ w ∈ s'.spanningForest v, v < w)
    (count : (s'.updates.map pairEdge : Multiset (Sym2 (Fin n))) = s'.seen.map pairEdge + ∑ t, owed (s'.thr t))
    (cached : s'.dsuValid = true → Cached s'.parent (forestGraph s'.spanningForest s'.thr) s'.seen)
    (flags : Flags s'.dsuValid s'.sharedDsuValid s'.thr) : Inv priority s' := by
  have hfree := h.free hc
  refine ⟨ord, calls, oriented, count, cached, flags, ?_, ?_, ?_⟩
  · rw [hquery, hfree]
    exact fun hf => by cases hf
  · rw [hquery, QueryPc.usesDsu_of_free hfree]
    exact fun hf => by cases hf
  · rw [hquery]
    exact QueryPc.inv_of_free hfree _ _

theorem only (hc : s.thr t = some c) : ∀ c' ∈ s.thr t, c' = c := by
  intro c' hc'
  rw [hc] at hc'
  exact (Option.some.inj hc').symm

/-- a property of the statement a thread has reached, for the call it is in -/
theorem of_only (hc : s.thr t = some c) {Q : PreInsert n → Prop} (hQ : Q c) : ∀ c' ∈ s.thr t, Q c' := by
  intro c' hc'
  rw [only hc c' hc']
  exact hQ

theorem of_some {Q : PreInsert n → Prop} (hQ : Q c) : ∀ c' ∈ some c, Q c' := by
  intro c' hc'
  cases hc'
  exact hQ

theorem of_none {Q : PreInsert n → Prop} : ∀ c' ∈ none, Q c' := by
  intro c' hc'
  cases hc'

/-- a step of thread t that leaves the forest and the flags alone, with no insertion to come or done -/
theorem Inv.move (h : Inv priority s) (hc : s.thr t = some c) {d : Option (PreInsert n)} (hi : c.pc ≠ .insert)
    (hi' : ∀ c' ∈ d, c'.pc ≠ .insert) (hs : c.pc ≠ .clearShared) (hs' : NotClearing d) :
    forestGraph s.spanningForest (Function.update s.thr t d) = forestGraph s.spanningForest s.thr ∧
      Flags s.dsuValid s.sharedDsuValid (Function.update s.thr t d) :=
  ⟨forestGraph_update (of_only hc hi) hi', h.flags.update (of_only hc hs) hs'⟩

/-- an update goes on, perhaps with a halving store, and neither inserts nor sees anything -/
theorem Inv.goto (h : Inv priority s) (hc : s.thr t = some c) {q : Fin n → Fin n}
    (hq : Quiet (rank priority) s.parent q) {pc : InsertPc n} (hpc : pc.Inv priority q c.src c.dst)
    (hl : pc.locked = c.pc.locked) (hu : pc.unseen = c.pc.unseen) (hi : c.pc ≠ .insert) (hi' : pc ≠ .insert)
    (hs : c.pc ≠ .clearShared) (hs' : pc ≠ .clearShared) : Inv priority { s.goto t c pc with parent := q } := by
  obtain ⟨hF, hflags⟩ := h.move hc (d := some { c with pc := pc }) hi (of_some hi') hs (of_some hs')
  refine h.of_thread hc rfl (hq.ordered h.ord) ((h.calls.mono (hq.grows h.ord)).goto hc hpc hl) h.oriented ?_
    (fun hv => ?_) hflags
  · have hcount := count_step 0 (t := t) (d := some { c with pc := pc }) h.count (by simp [owed, hc, hu])
    rwa [zero_add] at hcount
  · have hcached := (h.cached hv).quiet h.ord hq
    rw [← hF] at hcached
    exact hcached

/-- the edges seen after a step of thread t that sees its edge -/
theorem Inv.count_seen (h : Inv priority s) (hc : s.thr t = some c) (hu : c.pc.unseen = true)
    {d : Option (PreInsert n)} (hd : owed d = 0) :
    (s.updates.map pairEdge : Multiset (Sym2 (Fin n))) =
      ((c.src, c.dst) :: s.seen).map pairEdge + ∑ t', owed (Function.update s.thr t d t') := by
  have hcount := count_step {s(c.src, c.dst)} (t := t) (d := d) h.count (by rw [hd]; simp [owed, hc, hu])
  rw [hcount, List.map_cons, ← Multiset.cons_coe, ← Multiset.singleton_add]
  rfl

/-- the merge of an update: a step of it, a success, or a failure -/
theorem Inv.merge (h : Inv priority s) {m : MergePc n} (hc : s.thr t = some c) (hpc : c.pc = .merge m) {o : Side}
    (hs : insertStep priority s t o c = some s') : Inv priority s' := by
  have hm : m.Inv priority s.parent c.src c.dst := by
    have := (h.calls.call t c hc).2
    rwa [hpc] at this
  have hspec := MergePc.step_spec h.ord hm o
  simp only [insertStep, hpc] at hs
  rcases hst : m.step priority s.parent o with ⟨q, m' | r⟩ <;> rw [hst] at hs hspec <;> simp only at hs
  · cases hs
    exact h.goto hc hspec.1 hspec.2 (by rw [hpc]; rfl) (by rw [hpc]; rfl) (by simp [hpc]) (by simp) (by simp [hpc])
      (by simp)
  · rcases hspec with ⟨hr, hl⟩ | ⟨hr, hq, hsame⟩ <;> rw [hr] at hs <;> cases hs
    · -- the compare-exchange has linked the two sets
      have hne : c.src ≠ c.dst := fun he => hl.not_same h.ord (by rw [he])
      have hcalls : Calls priority q s.mtx (Function.update s.thr t (some { c with pc := .insert })) :=
        (h.calls.mono (hl.grows h.ord)).goto hc hne (by rw [hpc]; rfl)
      refine h.of_thread hc rfl (hl.ordered h.ord) hcalls h.oriented (h.count_seen hc (by rw [hpc]; rfl) rfl)
        (fun hv => ?_) (h.flags.update (of_only hc (by simp [hpc])) (of_some (by simp)))
      have hcached := (h.cached hv).link h.ord hl
      rw [← forestGraph_merged hc (by simp [hpc])] at hcached
      exact hcached
    · exact h.goto hc hq hsame (by rw [hpc]; rfl) (by rw [hpc]; rfl) (by simp [hpc]) (by simp) (by simp [hpc]) (by simp)

/-- the insertion of a merged edge -/
theorem Inv.insert (h : Inv priority s) (hc : s.thr t = some c) (hpc : c.pc = .insert) :
    Inv priority { s.goto t c .unlock with
                   spanningForest := Function.update s.spanningForest c.src (insert c.dst (s.spanningForest c.src)) } := by
  have hlt : c.src < c.dst := by
    have hcall := h.calls.call t c hc
    rw [hpc] at hcall
    exact lt_of_le_of_ne hcall.1 hcall.2
  have hor : ∀ v, ∀ w ∈ Function.update s.spanningForest c.src (Insert.insert c.dst (s.spanningForest c.src)) v, v < w := by
    intro v w hw
    by_cases hvs : v = c.src
    · subst hvs
      rw [Function.update_self, Finset.mem_insert] at hw
      rcases hw with rfl | hw
      · exact hlt
      · exact h.oriented _ w hw
    · rw [Function.update_of_ne hvs] at hw
      exact h.oriented v w hw
  refine h.of_thread hc rfl h.ord (h.calls.goto hc trivial (by rw [hpc]; rfl)) hor ?_ (fun hv => ?_)
    (h.flags.update (of_only hc (by simp [hpc])) (of_some (by simp)))
  · have hcount := count_step 0 (t := t) (d := some { c with pc := .unlock }) h.count
      (by simp [owed, hc, hpc, InsertPc.unseen])
    rwa [zero_add] at hcount
  · have hcached := h.cached hv
    rw [← forestGraph_insert hc hpc] at hcached
    exact hcached

/-- the lookup of an edge whose merge has failed -/
theorem Inv.find (h : Inv priority s) (hc : s.thr t = some c) (hpc : c.pc = .find)
    (hf : c.dst ∉ s.spanningForest c.src) :
    Inv priority { s.goto t c .unlock with seen := (c.src, c.dst) :: s.seen } := by
  have hsame : Same s.parent c.src c.dst := by
    have hcall := (h.calls.call t c hc).2
    rwa [hpc] at hcall
  obtain ⟨hF, hflags⟩ := h.move hc (d := some { c with pc := .unlock }) (by simp [hpc]) (of_some (by simp))
    (by simp [hpc]) (of_some (by simp))
  refine h.of_thread hc rfl h.ord (h.calls.goto hc trivial (by rw [hpc]; rfl)) h.oriented
    (h.count_seen hc (by rw [hpc]; rfl) rfl) (fun hv => ?_) hflags
  have hcached := (h.cached hv).toggle (h.calls.not_forest h.oriented hc hpc hf) hsame
  rw [← hF] at hcached
  exact hcached

theorem insertStep_inv (h : Inv priority s) (hc : s.thr t = some c) {o : Side}
    (hs : insertStep priority s t o c = some s') : Inv priority s' := by
  cases hpc : c.pc with
  | testValid =>
    simp only [insertStep, hpc] at hs
    split_ifs at hs with hv <;> cases hs
    · exact h.goto hc (Quiet.refl _ _) trivial (by rw [hpc]; rfl) (by rw [hpc]; rfl) (by simp [hpc]) (by simp)
        (by simp [hpc]) (by simp)
    · exact h.of_thread hc rfl h.ord (h.calls.leave hc (by rw [hpc]; rfl)) h.oriented
        (h.count_seen hc (by rw [hpc]; rfl) rfl) (fun hv' => absurd hv' hv)
        (h.flags.update (of_only hc (by simp [hpc])) of_none)
  | lock =>
    simp only [insertStep, hpc] at hs
    split_ifs at hs with hfree
    cases hs
    obtain ⟨hF, hflags⟩ := h.move hc (d := some { c with pc := .merge (.loop c.src c.dst) }) (by simp [hpc])
      (of_some (by simp)) (by simp [hpc]) (of_some (by simp))
    refine h.of_thread hc rfl h.ord
      (h.calls.lock hc (by rw [hpc]; rfl) hfree (MergePc.inv_start priority _ _ _) rfl) h.oriented ?_ (fun hv => ?_)
      hflags
    · have hcount := count_step 0 (t := t) (d := some { c with pc := .merge (.loop c.src c.dst) }) h.count
        (by simp [owed, hc, hpc, InsertPc.unseen])
      rwa [zero_add] at hcount
    · have hcached := h.cached hv
      rw [← hF] at hcached
      exact hcached
  | merge m => exact h.merge hc hpc hs
  | insert =>
    simp only [insertStep, hpc] at hs
    cases hs
    exact h.insert hc hpc
  | find =>
    simp only [insertStep, hpc] at hs
    split_ifs at hs with hf <;> cases hs
    · exact h.goto hc (Quiet.refl _ _) trivial (by rw [hpc]; rfl) (by rw [hpc]; rfl) (by simp [hpc]) (by simp)
        (by simp [hpc]) (by simp)
    · exact h.find hc hpc hf
  | clearValid =>
    simp only [insertStep, hpc] at hs
    cases hs
    refine h.of_thread hc rfl h.ord (h.calls.goto hc trivial (by rw [hpc]; rfl)) h.oriented
      (h.count_seen hc (by rw [hpc]; rfl) rfl) (fun hv => by cases hv) ⟨fun hv => (by cases hv), fun _ => ?_⟩
    refine .inr ⟨t, fun hn => hn { c with pc := .clearShared } ?_ rfl⟩
    exact Function.update_self ..
  | clearShared =>
    simp only [insertStep, hpc] at hs
    cases hs
    have hinv : ¬ s.dsuValid = true := fun hv => (h.flags.valid hv).2 t c hc hpc
    refine h.of_thread hc rfl h.ord (h.calls.goto hc trivial (by rw [hpc]; rfl)) h.oriented ?_
      (fun hv => absurd hv hinv) ⟨fun hv => absurd hv hinv, fun hsh => by cases hsh⟩
    have hcount := count_step 0 (t := t) (d := some { c with pc := .unlock }) h.count
      (by simp [owed, hc, hpc, InsertPc.unseen])
    rwa [zero_add] at hcount
  | unlock =>
    simp only [insertStep, hpc] at hs
    cases hs
    obtain ⟨hF, hflags⟩ := h.move hc (d := none) (by simp [hpc]) of_none (by simp [hpc]) of_none
    refine h.of_thread hc rfl h.ord (h.calls.unlock hc (by rw [hpc]; rfl)) h.oriented ?_ (fun hv => ?_) hflags
    · have hcount := count_step 0 (t := t) (d := none) h.count (by simp [owed, hc, hpc, InsertPc.unseen])
      rwa [zero_add] at hcount
    · have hcached := h.cached hv
      rw [← hF] at hcached
      exact hcached

/-- a step of a query, perhaps with a halving store -/
theorem Inv.querying (h : Inv priority s) (ha : ∀ t, s.thr t = none) {q : Fin n → Fin n}
    (hq : Quiet (rank priority) s.parent q) {pc : QueryPc n T} (hpc : pc.Inv priority q)
    (hv : pc.usesDsu = true → s.dsuValid = true) : Inv priority { s with parent := q, query := pc } where
  ord := hq.ordered h.ord
  calls := h.calls.mono (hq.grows h.ord)
  oriented := h.oriented
  count := h.count
  cached hv := (h.cached hv).quiet h.ord hq
  flags := h.flags
  alone _ := ha
  busy := hv
  query := hpc

/-- when no update runs, the flags agree -/
theorem Inv.flags_eq (h : Inv priority s) (ha : ∀ t, s.thr t = none) : s.sharedDsuValid = s.dsuValid := by
  rw [Bool.eq_iff_iff]
  refine ⟨fun hsh => (h.flags.shared hsh).resolve_right fun ⟨t, ht⟩ => ht ?_, fun hv => (h.flags.valid hv).1⟩
  rw [ha t]
  exact of_none

/-- when no update runs, all updates have been seen -/
theorem Inv.seen_eq (h : Inv priority s) (ha : ∀ t, s.thr t = none) : oddGraph s.seen = oddGraph s.updates := by
  have hcount := h.count
  simp only [ha, owed, Option.elim_none, Finset.sum_const_zero, add_zero, Multiset.coe_eq_coe] at hcount
  exact (oddGraph_congr hcount).symm

theorem forestGraph_alone (ha : ∀ t, thr t = none) : forestGraph forest thr = setGraph forest := by
  ext x y
  simp [forestGraph_adj, setGraph_adj, Inserting, ha]

/-- what is assumed of `boruvka_emulation`: it leaves the components and a spanning forest of the graph of all updates -/
def Restores (priority : Fin n → ℕ) (s : St n T) : Label n T → Prop
  | .boruvka parent forest =>
    Ordered (rank priority) parent ∧ (∀ v, ∀ w ∈ forest v, v < w) ∧ Spans parent (setGraph forest) ∧
      IsSpanningForest (setGraph forest) (oddGraph s.updates)
  | _ => True

theorem Inv.preInsert (h : Inv priority s) (hc : s.thr t = none) (upd : Fin n × Fin n) :
    Inv priority { s with
      thr := Function.update s.thr t (some ⟨min upd.1 upd.2, max upd.1 upd.2, .testValid⟩)
      query := .idle
      updates := upd :: s.updates } := by
  have hold : ∀ Q : PreInsert n → Prop, ∀ c ∈ s.thr t, Q c := fun Q c hc' => by rw [hc] at hc'; cases hc'
  have hsym : s(min upd.1 upd.2, max upd.1 upd.2) = pairEdge upd := by
    rcases le_total upd.1 upd.2 with hle | hle <;> simp [hle, pairEdge, Sym2.eq_swap]
  refine ⟨h.ord, h.calls.start hc (min_le_max), h.oriented, ?_, fun hv => ?_,
    h.flags.update (hold _) (of_some (by simp)), fun hf => (by cases hf), fun hf => (by cases hf), trivial⟩
  · have hnew : owed (some ⟨min upd.1 upd.2, max upd.1 upd.2, .testValid⟩) = {pairEdge upd} := by
      rw [← hsym]
      rfl
    have hsum := sum_owed s.thr t (some ⟨min upd.1 upd.2, max upd.1 upd.2, .testValid⟩)
    rw [hnew, show owed (s.thr t) = 0 by rw [hc]; rfl, add_zero] at hsum
    rw [List.map_cons, ← Multiset.cons_coe, ← Multiset.singleton_add, h.count, hsum]
    abel
  · have hF : forestGraph s.spanningForest
        (Function.update s.thr t (some ⟨min upd.1 upd.2, max upd.1 upd.2, .testValid⟩)) =
          forestGraph s.spanningForest s.thr := forestGraph_update (hold _) (of_some (by simp))
    have hcached := h.cached hv
    rw [← hF] at hcached
    exact hcached

theorem querierStep_inv (h : Inv priority s) {o : Side} (hs : querierStep s o = some s') : Inv priority s' := by
  have hq := h.query
  unfold querierStep at hs
  split at hs
  next a b hpc =>
    have ha := h.alone (by rw [hpc]; rfl)
    cases hs
    split_ifs with hv
    · exact h.querying ha (Quiet.refl _ _) trivial fun _ => hv
    · exact h.querying ha (Quiet.refl _ _) trivial fun hf => by cases hf
  next q _ hpc =>
    have ha := h.alone (by rw [hpc]; rfl)
    cases hs
    split_ifs with hv
    · exact h.querying ha (Quiet.refl _ _) trivial fun _ => by rw [← h.flags_eq ha]; exact hv
    · exact h.querying ha (Quiet.refl _ _) trivial fun hf => by cases hf
  next a b hpc =>
    have ha := h.alone (by rw [hpc]; rfl)
    cases hs
    exact h.querying ha (Quiet.refl _ _) (FindPc.inv_start (rank priority) _ _) fun _ => h.busy (by rw [hpc]; rfl)
  next owner hpc =>
    have ha := h.alone (by rw [hpc]; rfl)
    cases hs
    exact h.querying ha (Quiet.refl _ _) (fun t x hx => by cases hx) fun _ => h.busy (by rw [hpc]; rfl)
  next owner hpc =>
    have ha := h.alone (by rw [hpc]; rfl)
    cases hs
    exact h.querying ha (Quiet.refl _ _) (fun t x hx => by cases hx) fun _ => h.busy (by rw [hpc]; rfl)
  next o' a b f hpc =>
    have ha := h.alone (by rw [hpc]; rfl)
    rw [hpc] at hq
    obtain ⟨hqu, hf⟩ := FindPc.step_spec h.ord hq o
    rcases hst : f.step s.parent o with ⟨q, f' | r⟩ <;> rw [hst] at hs hqu hf <;> cases hs
    · exact h.querying ha hqu hf fun _ => h.busy (by rw [hpc]; rfl)
    · exact h.querying ha hqu (FindPc.inv_start (rank priority) _ _) fun _ => h.busy (by rw [hpc]; rfl)
  next o' a b r f hpc =>
    have ha := h.alone (by rw [hpc]; rfl)
    rw [hpc] at hq
    obtain ⟨hqu, hf⟩ := FindPc.step_spec h.ord hq o
    rcases hst : f.step s.parent o with ⟨q, f' | r⟩ <;> rw [hst] at hs hqu hf <;> cases hs
    · exact h.querying ha hqu hf fun _ => h.busy (by rw [hpc]; rfl)
    · exact h.querying ha hqu trivial fun hf => by cases hf
  next => cases hs

theorem teamStep_inv (h : Inv priority s) {q : Query n T} {thr : Fin T → TeamThread n} {arr : Fin n → Fin n}
    (hq : s.query = .team q thr arr) {o : Side} (hs : teamStep s q thr arr t o = some s') : Inv priority s' := by
  have ha := h.alone (by rw [hq]; rfl)
  have hv : s.dsuValid = true := h.busy (by rw [hq]; rfl)
  have hfinds : ∀ t, ∀ x ∈ (thr t).cur, x.2.Inv (rank priority) s.parent x.1 := by
    have := h.query
    rwa [hq] at this
  have hupd : ∀ {p' : Fin n → Fin n} {x : TeamThread n}, Grows s.parent p' →
      (∀ y ∈ x.cur, y.2.Inv (rank priority) p' y.1) →
      ∀ t', ∀ y ∈ (Function.update thr t x t').cur, y.2.Inv (rank priority) p' y.1 := by
    intro p' x hg hx
    refine Threads.forall_update (Q := fun _ (x : TeamThread n) => ∀ y ∈ x.cur, y.2.Inv (rank priority) p' y.1) ?_ hx
    exact fun t' y hy => (hfinds t' y hy).mono hg
  cases hcur : (thr t).cur with
  | none =>
    cases htodo : (thr t).todo with
    | nil => simp [teamStep, hcur, htodo] at hs
    | cons v vs =>
      simp only [teamStep, hcur, htodo, Option.some.injEq] at hs
      subst hs
      refine h.querying ha (Quiet.refl _ _) (hupd (Grows.refl _) fun y hy => ?_) fun _ => hv
      cases hy
      exact FindPc.inv_start (rank priority) _ _
  | some x =>
    obtain ⟨hqu, hf⟩ := FindPc.step_spec h.ord (hfinds t x hcur) o
    simp only [teamStep, hcur] at hs
    rcases hst : x.2.step s.parent o with ⟨q', f' | r⟩ <;> rw [hst] at hs hqu hf <;> cases hs
    · refine h.querying ha hqu (hupd (hqu.grows h.ord) fun y hy => ?_) fun _ => hv
      cases hy
      exact hf
    · exact h.querying ha hqu (hupd (hqu.grows h.ord) fun y hy => by cases hy) fun _ => hv

theorem step_inv {l : Label n T} (hl : Restores priority s l) (h : Inv priority s)
    (hs : step priority s l = some s') : Inv priority s' := by
  cases l with
  | preInsert t upd =>
    simp only [step] at hs
    split_ifs at hs with hc
    cases hs
    exact h.preInsert hc.2 upd
  | thread t o =>
    simp only [step] at hs
    split at hs
    next => cases hs
    next c hc => exact insertStep_inv h hc hs
  | query q =>
    simp only [step] at hs
    split_ifs at hs with hq
    cases hs
    exact h.querying hq.2 (Quiet.refl _ _) trivial fun hf => by cases hf
  | querier o => exact querierStep_inv h hs
  | boruvka parent forest =>
    simp only [step] at hs
    split at hs
    next q hq =>
      cases hs
      have ha := h.alone (by rw [hq]; rfl)
      obtain ⟨ho, hor, hsp, hf⟩ := hl
      refine ⟨ho, ⟨fun t => by rw [CallInv, ha t]; exact of_none, h.calls.mutex⟩, hor, h.count, fun _ => ?_,
        ⟨fun _ => ⟨rfl, fun t => by rw [NotClearing, ha t]; exact of_none⟩, fun _ => .inl rfl⟩, fun _ => ha, fun _ => rfl,
        trivial⟩
      simp only [forestGraph_alone ha]
      refine ⟨hsp, ?_, fun x y hxy => ?_⟩
      · rw [h.seen_eq ha]
        exact hf.le
      · rw [h.seen_eq ha] at hxy
        exact (hsp.reach x y).1 ((hf.reachable_iff x y).2 hxy.reachable)
    next => cases hs
  | team t o =>
    simp only [step] at hs
    split at hs
    next q thr arr hq => exact teamStep_inv h hq hs
    next => cases hs
  | join =>
    simp only [step] at hs
    split at hs
    next q thr arr hq =>
      split_ifs at hs
      cases hs
      exact h.querying (h.alone (by rw [hq]; rfl)) (Quiet.refl _ _) trivial fun hf => by cases hf
    next => cases hs

end GraphStreamingCC.Eager
