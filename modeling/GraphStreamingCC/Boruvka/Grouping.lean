/-
`create_merge_instructions` is a counting sort by root.

A thread records each vertex of its segment under the root that `find_root` returned (`pairs`), and the captures give it
slots in the blocks of the roots (`Local.slots`). `Inv` follows the array `cc_prefix` through the phases: counters of
reserved slots, sums along each segment, sums along the whole array, which are the begins of the blocks. So every vertex
is written to the place of its slot, and the places are a permutation (`grouped`), whatever `find_root` returned and in
whichever order the threads ran. The roots written are the ones of the union-find if every `find_root` makes its last
load where that load gives a root.
-/
import GraphStreamingCC.Boruvka.MergeInstructions
import GraphStreamingCC.Boruvka.Plan
import GraphStreamingCC.Core.Reservation
import GraphStreamingCC.Dsu.Invariant

namespace GraphStreamingCC.Boruvka.Create

open Dsu ParentForest Reservation Runs

variable {n T : ℕ} {m0 : Fin n → MergeInstr n} {s s' : St n T}

/-! ## The local maps -/

/-- the entries of `local_ccs`, as pairs of a root and a child -/
def pairs (ccs : List (Fin n × List (Fin n))) : List (Fin n × Fin n) := ccs.flatMap fun cc => cc.2.map fun v => (cc.1, v)

theorem pairs_cons (cc : Fin n × List (Fin n)) (ccs : List (Fin n × List (Fin n))) :
    pairs (cc :: ccs) = cc.2.map (fun v => (cc.1, v)) ++ pairs ccs := List.flatMap_cons ..

theorem pairs_pushBack (root child : Fin n) (ccs : List (Fin n × List (Fin n))) :
    (pairs (pushBack root child ccs)).Perm ((root, child) :: pairs ccs) := by
  induction ccs with
  | nil => exact List.Perm.refl _
  | cons cc ccs ih =>
    rw [pushBack, pairs_cons]
    split_ifs with hroot
    · subst hroot
      rw [pairs_cons, List.map_append, List.append_assoc]
      exact List.perm_middle
    · rw [pairs_cons]
      exact (List.Perm.append_left _ ih).trans List.perm_middle

theorem pairs_perm {ccs ccs' : List (Fin n × List (Fin n))} (h : ccs.Perm ccs') : (pairs ccs).Perm (pairs ccs') :=
  h.flatMap_right _

/-- the slots that a thread has reserved for its vertices -/
def Local.slots (l : Local n) : List (Slot (Fin n) (Fin n)) :=
  (l.localCcs.zip l.localCcIdx).flatMap fun x => block x.1.1 x.1.2 x.2

/-- the captures so far are those of a first part of the map -/
theorem slots_pairs (l : Local n) :
    l.slots.map (fun x => (x.group, x.item)) = pairs (l.localCcs.take l.localCcIdx.length) := by
  obtain ⟨ccs, idx⟩ := l
  simp only [Local.slots]
  induction ccs generalizing idx with
  | nil => simp [pairs]
  | cons cc ccs ih =>
    cases idx with
    | nil => simp [pairs]
    | cons i idx =>
      have hblock : (block cc.1 cc.2 i).map (fun x => (x.group, x.item)) = cc.2.map fun v => (cc.1, v) := by
        conv_rhs => rw [← block_items cc.1 cc.2 i, List.map_map]
        refine List.map_congr_left fun x hx => ?_
        rw [Function.comp_apply, (mem_block hx).1]
      rw [List.zip_cons_cons, List.flatMap_cons, List.map_append, ih, hblock, List.length_cons, List.take_succ_cons,
        pairs_cons]

theorem slots_sublist (l : Local n) : (l.slots.map fun x => (x.group, x.item)).Sublist (pairs l.localCcs) := by
  rw [slots_pairs, pairs, pairs]
  exact (List.take_sublist _ _).flatMap _

theorem slots_capture {l : Local n} {done todo : List (Fin n × List (Fin n))} {cc : Fin n × List (Fin n)} (idx : ℕ)
    (hccs : l.localCcs = done ++ cc :: todo) (hlen : l.localCcIdx.length = done.length) :
    Local.slots ⟨l.localCcs, l.localCcIdx ++ [idx]⟩ = l.slots ++ block cc.1 cc.2 idx := by
  have hzip : (done ++ cc :: todo).zip (l.localCcIdx ++ []) = done.zip l.localCcIdx ++ (cc :: todo).zip [] :=
    List.zip_append hlen.symm
  rw [List.append_nil, List.zip_nil_right, List.append_nil] at hzip
  simp only [Local.slots, hccs]
  rw [hzip, List.zip_append hlen.symm, List.flatMap_append, List.zip_cons_cons, List.zip_nil_right, List.flatMap_cons,
    List.flatMap_nil, List.append_nil]

/-! ## All threads together -/

/-- the slots reserved by all threads -/
def allSlots (locals : Fin T → Local n) : Multiset (Slot (Fin n) (Fin n)) := ∑ t, ((locals t).slots : Multiset _)

/-- the segments share out the loop -/
theorem sum_segments (hT : 0 < T) : ∑ t : Fin T, (loopRange n (seg n t).1 (seg n t).2 : Multiset (Fin n)) = Finset.univ.val := by
  ext i
  have hn : 0 < n := i.pos
  rw [Multiset.count_sum', Multiset.count_eq_one_of_mem Finset.univ.nodup (Finset.mem_univ i)]
  have hcount : ∀ t : Fin T, Multiset.count i (loopRange n (seg n t).1 (seg n t).2 : Multiset (Fin n)) =
      if t = (⟨getPartitionIdx n i T, getPartitionIdx_lt i.isLt hT⟩ : Fin T) then 1 else 0 := by
    intro t
    rw [Multiset.coe_count, List.Nodup.count nodup_loopRange]
    refine if_congr ?_ rfl rfl
    rw [mem_loopRange, seg, mem_partition_iff hT hn, Fin.ext_iff, eq_comm]
  simp only [hcount, Finset.sum_ite_eq', Finset.mem_univ, if_true]

/-- what a thread has recorded when it comes to index i -/
def Seen (m0 : Fin n → MergeInstr n) (a i : ℕ) (ccs : List (Fin n × List (Fin n))) : Prop :=
  ((pairs ccs).map Prod.snd).Perm ((loopRange n a i).map fun k => (m0 k).child)

theorem Seen.pushBack {a i : ℕ} {ccs : List (Fin n × List (Fin n))} (h : Seen m0 a i ccs) (hai : a ≤ i) (hi : i < n)
    (root : Fin n) : Seen m0 a (i + 1) (pushBack root (m0 ⟨i, hi⟩).child ccs) := by
  rw [Seen, loopRange_snoc hai hi, List.map_append]
  refine ((pairs_pushBack root _ ccs).map _).trans ?_
  rw [List.map_cons]
  exact (List.Perm.cons _ h).trans (List.perm_append_singleton _ _).symm

/-- the vertices of the slots are among those of the segments -/
theorem items_le (locals : Fin T → Local n) {a b : Fin T → ℕ} (h : ∀ t, Seen m0 (a t) (b t) (locals t).localCcs) :
    (allSlots locals).map Slot.item ≤ ∑ t, ((loopRange n (a t) (b t)).map fun k => (m0 k).child : Multiset (Fin n)) := by
  rw [allSlots, ← Multiset.coe_mapAddMonoidHom, map_sum]
  refine Finset.sum_le_sum fun t _ => ?_
  rw [Multiset.coe_mapAddMonoidHom, Multiset.map_coe, ← Multiset.coe_eq_coe.2 (h t), Multiset.coe_le]
  have := ((slots_sublist (locals t)).map Prod.snd).subperm
  rwa [List.map_map] at this

/-- every vertex has been given a slot -/
structure Collected (count : Fin n → ℕ) (locals : Fin T → Local n) : Prop where
  reserved : Reserved count (allSlots locals)
  items : (allSlots locals).map Slot.item = Finset.univ.val

/-! ## The first phase -/

/-- where a thread is in its segment, what it has recorded, and which entries of its map have their slots -/
def Collect.Inv (m0 : Fin n → MergeInstr n) (t : Fin T) (l : Local n) : Collect n → Prop
  | .visit i => (seg n t).1 ≤ i ∧ i ≤ (seg n t).2 ∧ l.localCcIdx = [] ∧ Seen m0 (seg n t).1 i l.localCcs
  | .find i child _ =>
    (seg n t).1 ≤ i ∧ i < (seg n t).2 ∧ (∃ m, instrAt m0 i = some m ∧ m.child = child) ∧ l.localCcIdx = [] ∧
      Seen m0 (seg n t).1 i l.localCcs
  | .capture todo =>
    Seen m0 (seg n t).1 (seg n t).2 l.localCcs ∧ ∃ done, l.localCcs = done ++ todo ∧ l.localCcIdx.length = done.length

/-- how far a thread has recorded its segment -/
theorem Collect.Inv.seen {t : Fin T} {l : Local n} {c : Collect n} (h : c.Inv m0 t l) :
    ∃ i ≤ (seg n t).2, Seen m0 (seg n t).1 i l.localCcs := by
  cases c with
  | visit i => exact ⟨i, h.2.1, h.2.2.2⟩
  | find i child f => exact ⟨i, h.2.1.le, h.2.2.2.2⟩
  | capture todo => exact ⟨_, le_rfl, h.1⟩

/-- no more slots than vertices -/
theorem card_slots_le (hT : 0 < T) {thr : Fin T → Collect n} {locals : Fin T → Local n}
    (h : ∀ t, (thr t).Inv m0 t (locals t)) : (allSlots locals).card ≤ n := by
  choose i hi hseen using fun t => (h t).seen
  have hrange : ∀ t : Fin T, ((loopRange n (seg n t).1 (i t)).map (fun k => (m0 k).child) : Multiset (Fin n)) ≤
      (loopRange n (seg n t).1 (seg n t).2).map fun k => (m0 k).child := by
    intro t
    rw [← Multiset.map_coe, ← Multiset.map_coe]
    refine Multiset.map_le_map (Multiset.coe_le.2 (List.subperm_of_subset nodup_loopRange fun k hk => ?_))
    rw [mem_loopRange] at hk ⊢
    exact ⟨hk.1, hk.2.trans_le (hi t)⟩
  calc (allSlots locals).card = ((allSlots locals).map Slot.item).card := (Multiset.card_map _ _).symm
    _ ≤ (∑ t : Fin T, ((loopRange n (seg n t).1 (seg n t).2).map fun k => (m0 k).child : Multiset (Fin n))).card :=
      Multiset.card_le_card ((items_le locals hseen).trans (Finset.sum_le_sum fun t _ => hrange t))
    _ = n := by
      simp only [← Multiset.map_coe, ← Multiset.coe_mapAddMonoidHom]
      rw [← map_sum, sum_segments hT, Multiset.coe_mapAddMonoidHom, Multiset.card_map]
      exact Finset.card_fin n

theorem allSlots_update (locals : Fin T → Local n) (t : Fin T) (l : Local n) :
    allSlots (Function.update locals t l) + ((locals t).slots : Multiset _) = allSlots locals + (l.slots : Multiset _) :=
  Threads.sum_update (fun l : Local n => (l.slots : Multiset (Slot (Fin n) (Fin n)))) locals t l

theorem inv_update {thr : Fin T → Collect n} {locals : Fin T → Local n} (h : ∀ t, (thr t).Inv m0 t (locals t)) {t : Fin T}
    {c : Collect n} {l : Local n} (hc : c.Inv m0 t l) :
    ∀ t', (Function.update thr t c t').Inv m0 t' (Function.update locals t l t') := by
  intro t'
  by_cases ht : t' = t
  · subst ht
    rw [Function.update_self, Function.update_self]
    exact hc
  · rw [Function.update_of_ne ht, Function.update_of_ne ht]
    exact h t'

/-- the instructions are unchanged, and `cc_prefix` counts the slots of each root -/
structure CollectInv (m0 : Fin n → MergeInstr n) (s : St n T) (thr : Fin T → Collect n) : Prop where
  instr : s.mergeInstr = m0
  reserved : Reserved s.ccPrefix (allSlots s.locals)
  threads : ∀ t, (thr t).Inv m0 t (s.locals t)

theorem CollectInv.collectStep (hn : n < 2 ^ 32) {thr : Fin T → Collect n} (h : CollectInv m0 s thr) {t : Fin T} {o : Side}
    (hs : collectStep s thr t o = some s') : ∃ thr', s'.phase = .collect thr' ∧ CollectInv m0 s' thr' := by
  have hstop : (seg n t).2 ≤ n := partition_le t.isLt
  have ht := h.threads t
  unfold Create.collectStep at hs
  split at hs
  next i hc =>
    rw [hc] at ht
    split_ifs at hs with hi
    have hm : instrAt s.mergeInstr i = some (m0 ⟨i, hi.trans_le hstop⟩) := by rw [h.instr, instrAt_of_lt]
    rw [hm] at hs
    cases hs
    refine ⟨_, rfl, h.instr, h.reserved, Threads.forall_update h.threads ?_⟩
    exact ⟨ht.1, hi, ⟨_, instrAt_of_lt (hi.trans_le hstop), rfl⟩, ht.2.2⟩
  next i child f hc =>
    rw [hc] at ht
    obtain ⟨h1, h2, ⟨m, hm, rfl⟩, hidx, hseen⟩ := ht
    rw [instrAt_of_lt (h2.trans_le hstop)] at hm
    cases hm
    rcases hst : f.step s.parent o with ⟨p', f' | root⟩ <;> rw [hst] at hs <;> cases hs
    · exact ⟨_, rfl, h.instr, h.reserved, Threads.forall_update h.threads ⟨h1, h2, ⟨_, instrAt_of_lt _, rfl⟩, hidx, hseen⟩⟩
    · -- the vertex is recorded; there are no slots yet
      refine ⟨_, rfl, h.instr, ?_, inv_update h.threads ⟨by omega, h2, hidx, hseen.pushBack h1 _ root⟩⟩
      have hslots := allSlots_update s.locals t ⟨pushBack root (m0 ⟨i, h2.trans_le hstop⟩).child (s.locals t).localCcs,
        (s.locals t).localCcIdx⟩
      simp only [Local.slots, hidx, List.zip_nil_right, List.flatMap_nil, Multiset.coe_nil, add_zero] at hslots
      simp only [hidx]
      rw [hslots]
      exact h.reserved
  next => cases hs
  next cc todo hc =>
    rw [hc] at ht
    obtain ⟨hseen, done, hccs, hlen⟩ := ht
    cases hs
    have hthreads : ∀ t', (Function.update thr t (.capture todo) t').Inv m0 t' (Function.update s.locals t
        ⟨(s.locals t).localCcs, (s.locals t).localCcIdx ++ [s.ccPrefix cc.1]⟩ t') :=
      inv_update h.threads ⟨hseen, done ++ [cc], by simp [hccs], by simp [hlen]⟩
    have hslots : allSlots (Function.update s.locals t
        ⟨(s.locals t).localCcs, (s.locals t).localCcIdx ++ [s.ccPrefix cc.1]⟩) =
          allSlots s.locals + (block cc.1 cc.2 (s.ccPrefix cc.1) : Multiset _) := by
      have := allSlots_update s.locals t ⟨(s.locals t).localCcs, (s.locals t).localCcIdx ++ [s.ccPrefix cc.1]⟩
      rw [slots_capture _ hccs hlen, ← Multiset.coe_add] at this
      refine add_right_cancel (this.trans ?_)
      abel
    have hadd := h.reserved.add cc.1 cc.2
    rw [← hslots] at hadd
    -- the counter does not overflow
    have hcard : s.ccPrefix cc.1 + cc.2.length ≤ n := by
      calc s.ccPrefix cc.1 + cc.2.length = _ := by
            rw [← Function.update_self cc.1 (s.ccPrefix cc.1 + cc.2.length) s.ccPrefix, ← hadd.counted]
        _ ≤ _ := Multiset.countP_le_card _ _
        _ ≤ n := card_slots_le t.pos hthreads
    refine ⟨_, rfl, h.instr, ?_, hthreads⟩
    simp only [Nat.mod_eq_of_lt (hcard.trans_lt hn)]
    exact hadd

theorem CollectInv.iterate {thr : Fin T → Collect n} (h : CollectInv m0 s thr) {t : Fin T} {i : ℕ}
    {order : List (Fin n × List (Fin n))} (hc : thr t = .visit i) (hi : (seg n t).2 ≤ i)
    (hperm : order.Perm (s.locals t).localCcs) :
    CollectInv m0 { s with
      locals := Function.update s.locals t ⟨order, (s.locals t).localCcIdx⟩
      phase := .collect (Function.update thr t (.capture order)) } (Function.update thr t (.capture order)) := by
  have ht := h.threads t
  rw [hc] at ht
  obtain ⟨h1, h2, hidx, hseen⟩ := ht
  rw [show i = (seg n t).2 by omega] at hseen
  refine ⟨h.instr, ?_, inv_update h.threads ⟨((pairs_perm hperm).map _).trans hseen, [], rfl, by rw [hidx]; rfl⟩⟩
  have hslots := allSlots_update s.locals t ⟨order, (s.locals t).localCcIdx⟩
  simp only [Local.slots, hidx, List.zip_nil_right, List.flatMap_nil, Multiset.coe_nil, add_zero] at hslots
  simp only [hidx]
  rw [hslots]
  exact h.reserved

/-- at the barrier every vertex has its slot -/
theorem CollectInv.collected (hT : 0 < T) (hm : Function.Bijective fun i => (m0 i).child) {thr : Fin T → Collect n}
    (h : CollectInv m0 s thr) (hall : ∀ t, thr t = .capture []) : Collected s.ccPrefix s.locals := by
  refine ⟨h.reserved, ?_⟩
  have hitems : ∀ t, ((s.locals t).slots : Multiset (Slot (Fin n) (Fin n))).map Slot.item =
      (loopRange n (seg n t).1 (seg n t).2 : Multiset (Fin n)).map fun k => (m0 k).child := by
    intro t
    have ht := h.threads t
    rw [hall t] at ht
    obtain ⟨hseen, done, hccs, hlen⟩ := ht
    rw [List.append_nil] at hccs
    have hpairs := congrArg (List.map Prod.snd) (slots_pairs (s.locals t))
    rw [hlen, ← hccs, List.take_length, List.map_map] at hpairs
    rw [Multiset.map_coe, Multiset.map_coe, ← Multiset.coe_eq_coe.2 hseen, ← hpairs]
    rfl
  rw [allSlots, ← Multiset.coe_mapAddMonoidHom, map_sum]
  simp only [Multiset.coe_mapAddMonoidHom, hitems]
  simp only [← Multiset.coe_mapAddMonoidHom]
  rw [← map_sum, sum_segments hT, Multiset.coe_mapAddMonoidHom]
  exact congrArg Finset.val (Finset.map_univ_equiv (Equiv.ofBijective _ hm))

/-! ## The prefix sums -/

/-- the number of slots of the roots from a to b -/
def partSum (count : Fin n → ℕ) (a b : ℕ) : ℕ := ∑ k : Fin n with a ≤ k.val ∧ k.val < b, count k

variable {count : Fin n → ℕ} {a b c : ℕ}

theorem partSum_self : partSum count a a = 0 :=
  Finset.sum_eq_zero fun k hk => absurd (Finset.mem_filter.1 hk).2 (by omega)

theorem partSum_add (hab : a ≤ b) (hbc : b ≤ c) : partSum count a b + partSum count b c = partSum count a c := by
  have hdisj : Disjoint (Finset.univ.filter fun k : Fin n => a ≤ k.val ∧ k.val < b)
      (Finset.univ.filter fun k : Fin n => b ≤ k.val ∧ k.val < c) :=
    Finset.disjoint_filter.2 fun k _ h1 h2 => absurd h1.2 (not_lt.2 h2.1)
  rw [partSum, partSum, ← Finset.sum_union hdisj, ← Finset.filter_or, partSum]
  refine Finset.sum_congr (Finset.filter_congr fun k _ => ?_) fun _ _ => rfl
  omega

theorem partSum_one (k : Fin n) : partSum count k (k + 1) = count k := by
  have hset : Finset.univ.filter (fun j : Fin n => k.val ≤ j.val ∧ j.val < k.val + 1) = {k} := by
    ext j
    rw [Finset.mem_filter, Finset.mem_singleton, Fin.ext_iff]
    simp only [Finset.mem_univ, true_and]
    omega
  rw [partSum, hset, Finset.sum_singleton]

theorem base_eq (count : Fin n → ℕ) (k : Fin n) : base count k = partSum count 0 k := by
  rw [base, partSum]
  refine Finset.sum_congr (Finset.filter_congr fun j _ => ?_) fun _ _ => rfl
  rw [Fin.lt_def]
  omega

theorem Collected.card {locals : Fin T → Local n} (h : Collected count locals) : (allSlots locals).card = n := by
  rw [← Multiset.card_map Slot.item, h.items]
  exact Finset.card_fin n

theorem Collected.partSum_le {locals : Fin T → Local n} (h : Collected count locals) (a b : ℕ) : partSum count a b ≤ n := by
  have hsum : ∑ k, count k = n := h.reserved.sum_count.trans h.card
  exact (Finset.sum_le_sum_of_subset (Finset.subset_univ _)).trans_eq hsum

/-- each thread has turned the values of its segment below its index from `old` into `new` -/
def Advanced (old new : Fin T → Fin n → ℕ) (i : Fin T → ℕ) (ccPrefix : Fin n → ℕ) : Prop :=
  ∀ t, ∀ k : Fin n, (seg n t).1 ≤ k → k.val < (seg n t).2 → ccPrefix k = if k.val < i t then new t k else old t k

theorem seg_unique {t t' : Fin T} {k : Fin n} (h : (seg n t).1 ≤ k ∧ k.val < (seg n t).2)
    (h' : (seg n t').1 ≤ k ∧ k.val < (seg n t').2) : t' = t := by
  have h1 := (mem_partition_iff t.pos k.pos).1 h
  have h2 := (mem_partition_iff t.pos k.pos).1 h'
  exact Fin.ext (h2.symm.trans h1)

theorem Advanced.step {old new : Fin T → Fin n → ℕ} {i : Fin T → ℕ} {ccPrefix : Fin n → ℕ}
    (h : Advanced old new i ccPrefix) {t : Fin T} (hi : i t < n) (hlow : (seg n t).1 ≤ i t) (hhigh : i t < (seg n t).2) :
    Advanced old new (Function.update i t (i t + 1)) (Function.update ccPrefix ⟨i t, hi⟩ (new t ⟨i t, hi⟩)) := by
  intro t' k h1 h2
  by_cases hk : k = ⟨i t, hi⟩
  · subst hk
    obtain rfl := seg_unique ⟨hlow, hhigh⟩ ⟨h1, h2⟩
    rw [Function.update_self, Function.update_self, if_pos (Nat.lt_succ_self _)]
  · rw [Function.update_of_ne hk, h t' k h1 h2]
    by_cases ht : t' = t
    · subst ht
      rw [Function.update_self]
      have hne : k.val ≠ i t' := fun he => hk (Fin.ext he)
      exact if_congr (by omega) rfl rfl
    · rw [Function.update_of_ne ht]

/-- all threads are at the ends of their segments -/
theorem Advanced.all {old new : Fin T → Fin n → ℕ} {i : Fin T → ℕ} {ccPrefix : Fin n → ℕ}
    (h : Advanced old new i ccPrefix) (hi : ∀ t, (seg n t).2 ≤ i t) {t : Fin T} {k : Fin n} (h1 : (seg n t).1 ≤ k)
    (h2 : k.val < (seg n t).2) : ccPrefix k = new t k := by
  rw [h t k h1 h2, if_pos (h2.trans_le (hi t))]

/-- the sums along each segment -/
def segSum (count : Fin n → ℕ) (t : Fin T) (k : Fin n) : ℕ := partSum count (seg n t).1 (k + 1)

structure PrefixInv (count : Fin n → ℕ) (s : St n T) (i : Fin T → ℕ) : Prop where
  collected : Collected count s.locals
  range : ∀ t, (seg n t).1 < i t
  sums : Advanced (fun _ => count) (segSum count) i s.ccPrefix

theorem prefixInv_start (h : Collected s.ccPrefix s.locals) :
    PrefixInv s.ccPrefix { s with phase := .prefixSum fun t => (seg n t).1 + 1 } fun t => (seg n t).1 + 1 := by
  refine ⟨h, fun t => Nat.lt_succ_self _, fun t k h1 h2 => ?_⟩
  split_ifs with hk
  · have hk' : (seg n t).1 = k := by omega
    rw [segSum, hk', partSum_one]
  · rfl

theorem PrefixInv.prefixStep (hn : n < 2 ^ 32) {i : Fin T → ℕ} (h : PrefixInv count s i) {t : Fin T}
    (hs : prefixStep s i t = some s') : ∃ i', s'.phase = .prefixSum i' ∧ PrefixInv count s' i' := by
  have hstop : (seg n t).2 ≤ n := partition_le t.isLt
  have hlow := h.range t
  unfold Create.prefixStep at hs
  split_ifs at hs with hi hin
  · cases hs
    refine ⟨_, rfl, h.collected, Threads.forall_update h.range (by omega), ?_⟩
    have hprev := h.sums t ⟨i t - 1, hin.2⟩ (by simp only; omega) (by simp only; omega)
    have hcur := h.sums t ⟨i t, hin.1⟩ (by simp only; omega) hi
    simp only [show i t - 1 < i t by omega, if_true, lt_irrefl, if_false, segSum, Nat.sub_add_cancel (show 1 ≤ i t by omega)]
      at hprev hcur
    have hsum : s.ccPrefix ⟨i t, hin.1⟩ + s.ccPrefix ⟨i t - 1, hin.2⟩ = segSum count t ⟨i t, hin.1⟩ := by
      have hone : partSum count (i t) (i t + 1) = count ⟨i t, hin.1⟩ := partSum_one ⟨i t, hin.1⟩
      rw [hprev, hcur, segSum, ← partSum_add hlow.le (Nat.le_succ _), Nat.succ_eq_add_one, hone]
      exact Nat.add_comm _ _
    simp only [hsum]
    rw [segSum, Nat.mod_eq_of_lt ((h.collected.partSum_le _ _).trans_lt hn)]
    exact h.sums.step hin.1 hlow.le hi
  · exact absurd ⟨by omega, by omega⟩ hin

/-- the sums along the array -/
def wholeSum (count : Fin n → ℕ) (_ : Fin T) (k : Fin n) : ℕ := partSum count 0 (k + 1)

structure FinishInv (count : Fin n → ℕ) (s : St n T) (rangeSums : Fin T → ℕ) (i : Fin T → ℕ) : Prop where
  collected : Collected count s.locals
  offsets : ∀ t, rangeSums t = partSum count 0 (seg n t).1
  range : ∀ t, (seg n t).1 ≤ i t
  sums : Advanced (segSum count) (wholeSum count) i s.ccPrefix

/-- the single thread finds the sum of a segment at its last element -/
theorem rangeSum_eq (hn : n < 2 ^ 32) (hTn : T ≤ n) {locals : Fin T → Local n} (hc : Collected count locals)
    {ccPrefix : Fin n → ℕ}
    (hsums : ∀ (t : Fin T) (k : Fin n), (seg n t).1 ≤ k → k.val < (seg n t).2 → ccPrefix k = segSum count t k) {t : ℕ}
    (ht : t < T) : rangeSum ccPrefix T t = some (partSum count 0 (getIthPartition n t T).1) := by
  induction t with
  | zero => rw [rangeSum, partition_zero, partSum_self]
  | succ t ih =>
    have hne := partition_nonempty (t := t) hTn (by omega)
    have hle := partition_le (n := n) (t := t) (T := T) (by omega)
    have hcur : ((getIthPartition n t T).2 + 2 ^ 32 - 1) % 2 ^ 32 = (getIthPartition n t T).2 - 1 := by
      rw [show (getIthPartition n t T).2 + 2 ^ 32 - 1 = (getIthPartition n t T).2 - 1 + 2 ^ 32 by omega, Nat.add_mod_right,
        Nat.mod_eq_of_lt (by omega)]
    have hin : (getIthPartition n t T).2 - 1 < n := by omega
    have hlast := hsums ⟨t, by omega⟩ ⟨_, hin⟩ (by simp only [seg]; omega) (by simp only [seg]; omega)
    rw [segSum, seg, Nat.sub_add_cancel (show 1 ≤ (getIthPartition n t T).2 by omega)] at hlast
    have hsum : partSum count (getIthPartition n t T).1 (getIthPartition n t T).2 + partSum count 0 (getIthPartition n t T).1 =
        partSum count 0 (getIthPartition n t T).2 := by
      rw [add_comm]
      exact partSum_add (Nat.zero_le _) hne.le
    rw [rangeSum]
    simp only [hcur]
    rw [dif_pos hin, ih (by omega), Option.map_some, hlast, hsum, partition_succ,
      Nat.mod_eq_of_lt ((hc.partSum_le _ _).trans_lt hn)]

theorem FinishInv.finishStep (hn : n < 2 ^ 32) {rangeSums i : Fin T → ℕ} (h : FinishInv count s rangeSums i) {t : Fin T}
    (hs : finishStep s rangeSums i t = some s') : ∃ i', s'.phase = .finish rangeSums i' ∧ FinishInv count s' rangeSums i' := by
  have hstop : (seg n t).2 ≤ n := partition_le t.isLt
  have hlow := h.range t
  unfold Create.finishStep at hs
  split_ifs at hs with hi hin
  · cases hs
    refine ⟨_, rfl, h.collected, h.offsets, Threads.forall_update h.range (by omega), ?_⟩
    have hcur := h.sums t ⟨i t, hin⟩ hlow hi
    rw [if_neg (lt_irrefl _)] at hcur
    have hsum : s.ccPrefix ⟨i t, hin⟩ + rangeSums t = wholeSum count t ⟨i t, hin⟩ := by
      rw [hcur, h.offsets, segSum, wholeSum, add_comm]
      exact partSum_add (Nat.zero_le _) (by simp only; omega)
    simp only [hsum]
    rw [wholeSum, Nat.mod_eq_of_lt ((h.collected.partSum_le _ _).trans_lt hn)]
    exact h.sums.step hin hlow hi
  · exact absurd (hi.trans_le hstop) hin

/-! ## The assignments -/

/-- the instruction that a slot stands for -/
def instrOf (x : Slot (Fin n) (Fin n)) : MergeInstr n := ⟨x.group, x.item⟩

theorem block_eq_map (k : Fin n) (items : List (Fin n)) (offset : ℕ) :
    block k items offset = items.zipIdx.map fun x => ⟨k, x.1, offset + x.2⟩ := by
  rw [block, List.zipIdx_eq_map_add, List.map_map]
  exact List.map_congr_left fun x _ => rfl

/-- **The place of a slot**: what a thread is going to write -/
theorem writes_eq (hn : n < 2 ^ 32) {locals : Fin T → Local n} (hc : Collected count locals)
    {ccPrefix : Fin n → ℕ}
    (hsums : ∀ k : Fin n, ccPrefix k = partSum count 0 (k + 1)) (t : Fin T) :
    writes ccPrefix (locals t) = (locals t).slots.map fun x => (place count x, instrOf x) := by
  have hmem : ∀ x ∈ (locals t).slots, x ∈ allSlots locals := fun x hx =>
    Multiset.mem_sum.2 ⟨t, Finset.mem_univ t, Multiset.mem_coe.2 hx⟩
  rw [writes, Local.slots, List.map_flatMap]
  refine List.flatMap_congr fun x hx => ?_
  obtain ⟨⟨root, vertices⟩, idx⟩ := x
  cases vertices with
  | nil => rfl
  | cons v vertices =>
    -- the first slot of the block lies within the array, so its place does not overflow
    have hfirst := hc.reserved.place_lt (hmem ⟨root, v, idx⟩ (List.mem_flatMap.2 ⟨_, hx, List.mem_cons_self⟩))
    rw [hc.card, place] at hfirst
    have hplacement : placement ccPrefix root idx = base count root + idx := by
      rw [placement, base_eq]
      split_ifs with hroot
      · rw [hsums, Nat.sub_add_cancel hroot, add_comm, ← base_eq, Nat.mod_eq_of_lt (hfirst.trans hn)]
      · rw [Nat.eq_zero_of_not_pos hroot, partSum_self, zero_add]
    simp only [hplacement, block_eq_map, List.map_map]
    refine List.map_congr_left fun y _ => ?_
    rw [Function.comp_apply, place, add_assoc]
    rfl

/-- every slot is written, or left to be written by a thread, and nothing else is -/
structure WriteInv (count : Fin n → ℕ) (s : St n T) (todo : Fin T → List (ℕ × MergeInstr n)) : Prop where
  collected : Collected count s.locals
  owned : ∀ t, ∀ w ∈ todo t, ∃ x ∈ allSlots s.locals, w = (place count x, instrOf x)
  written : ∀ x ∈ allSlots s.locals, (∃ t, (place count x, instrOf x) ∈ todo t) ∨
    instrAt s.mergeInstr (place count x) = some (instrOf x)

theorem writeInv_start (hn : n < 2 ^ 32) (h : Collected count s.locals)
    (hsums : ∀ k : Fin n, s.ccPrefix k = partSum count 0 (k + 1)) :
    WriteInv count { s with phase := .write fun t => writes s.ccPrefix (s.locals t) } fun t =>
      writes s.ccPrefix (s.locals t) := by
  refine ⟨h, fun t w hw => ?_, fun x hx => .inl ?_⟩
  · rw [writes_eq hn h hsums] at hw
    obtain ⟨x, hx, rfl⟩ := List.mem_map.1 hw
    exact ⟨x, Multiset.mem_sum.2 ⟨t, Finset.mem_univ t, Multiset.mem_coe.2 hx⟩, rfl⟩
  · obtain ⟨t, -, hx⟩ := Multiset.mem_sum.1 hx
    refine ⟨t, ?_⟩
    rw [writes_eq hn h hsums]
    exact List.mem_map_of_mem (Multiset.mem_coe.1 hx)

theorem instrAt_update {i : ℕ} (hi : i < n) (m : MergeInstr n) (j : ℕ) :
    instrAt (Function.update m0 ⟨i, hi⟩ m) j = if j = i then some m else instrAt m0 j := by
  unfold instrAt
  by_cases hj : j = i
  · subst hj
    rw [dif_pos hi, if_pos rfl, Function.update_self]
  · rw [if_neg hj]
    refine dite_congr rfl (fun h => ?_) fun _ => rfl
    rw [Function.update_of_ne fun he => hj (Fin.mk.inj he)]

theorem WriteInv.writeStep {todo : Fin T → List (ℕ × MergeInstr n)} (h : WriteInv count s todo) {t : Fin T}
    (hs : writeStep s todo t = some s') : ∃ todo', s'.phase = .write todo' ∧ WriteInv count s' todo' := by
  unfold Create.writeStep at hs
  split at hs
  next => cases hs
  next i m rest htodo =>
    obtain ⟨y, hy, he⟩ := h.owned t (i, m) (by rw [htodo]; exact List.mem_cons_self)
    obtain ⟨rfl, rfl⟩ := Prod.mk.inj he
    have hin : place count y < n := (h.collected.reserved.place_lt hy).trans_eq h.collected.card
    rw [dif_pos hin] at hs
    cases hs
    refine ⟨_, rfl, h.collected, ?_, fun x hx => ?_⟩
    · refine Threads.forall_update (Q := fun _ ws => ∀ w ∈ ws, ∃ x ∈ allSlots s.locals, w = (place count x, instrOf x))
        h.owned fun w hw => h.owned t w ?_
      rw [htodo]
      exact List.mem_cons_of_mem _ hw
    · simp only [instrAt_update hin]
      by_cases hplace : place count x = place count y
      · obtain rfl := h.collected.reserved.eq_of_place hx hy hplace
        exact .inr (if_pos rfl)
      · rcases h.written x hx with ⟨t', ht'⟩ | hdone
        · left
          by_cases ht : t' = t
          · subst ht
            rw [htodo, List.mem_cons] at ht'
            refine ⟨t', ?_⟩
            rw [Function.update_self]
            exact ht'.resolve_left fun he => hplace (Prod.mk.inj he).1
          · exact ⟨t', by rwa [Function.update_of_ne ht]⟩
        · exact .inr ((if_neg hplace).trans hdone)

/-! ## The invariant -/

/-- what holds in each phase; `undefined` is not reached -/
def Inv (m0 : Fin n → MergeInstr n) (s : St n T) : Prop :=
  match s.phase with
  | .collect thr => CollectInv m0 s thr
  | .prefixSum i => ∃ count, PrefixInv count s i
  | .single => ∃ count, Collected count s.locals ∧
    ∀ (t : Fin T) (k : Fin n), (seg n t).1 ≤ k → k.val < (seg n t).2 → s.ccPrefix k = segSum count t k
  | .finish rangeSums i => ∃ count, FinishInv count s rangeSums i
  | .write todo => ∃ count, WriteInv count s todo
  | .undefined => False

theorem inv_start (hTn : T ≤ n) (m0 : Fin n → MergeInstr n) (parent : Fin n → Fin n) :
    Inv m0 (start m0 parent : St n T) := by
  refine ⟨rfl, ?_, fun t => ⟨le_rfl, (partition_nonempty hTn t.pos).le, rfl, ?_⟩⟩
  · have hempty : allSlots (fun _ : Fin T => (⟨[], []⟩ : Local n)) = 0 := Finset.sum_eq_zero fun _ _ => rfl
    exact hempty ▸ Reserved.zero
  · rw [Seen, loopRange_self]
    exact List.Perm.refl _

section run

variable (hn : n < 2 ^ 32) (hT : 0 < T) (hTn : T ≤ n) (hm : Function.Bijective fun i => (m0 i).child)
include hn hT hTn hm

theorem barrier_inv (h : Inv m0 s) (hs : barrierStep s = some s') : Inv m0 s' := by
  unfold barrierStep at hs
  unfold Inv at h
  split at hs
  next thr hphase =>
    rw [hphase] at h
    split_ifs at hs with hall
    cases hs
    exact ⟨_, prefixInv_start (h.collected hT hm hall)⟩
  next i hphase =>
    rw [hphase] at h
    obtain ⟨count, h⟩ := h
    split_ifs at hs with hall
    cases hs
    exact ⟨count, h.collected, fun t k h1 h2 => h.sums.all hall h1 h2⟩
  next hphase =>
    rw [hphase] at h
    obtain ⟨count, hc, hsums⟩ := h
    have hrange : ∀ t : Fin T, rangeSum s.ccPrefix T t = some (partSum count 0 (seg n t).1) := fun t =>
      rangeSum_eq hn hTn hc hsums t.isLt
    rw [if_pos fun t => by rw [hrange]; rfl] at hs
    cases hs
    refine ⟨count, hc, fun t => by rw [hrange]; rfl, fun t => ?_, fun t k h1 h2 => ?_⟩
    · split_ifs
      · exact le_rfl
      · exact (partition_nonempty hTn hT).le
    · rw [hsums t k h1 h2]
      by_cases ht : 0 < t.val
      · rw [if_pos ht, if_neg (not_lt.2 h1)]
      · -- the first thread has nothing to add
        rw [if_neg ht, if_pos h2, segSum, wholeSum, seg, show t.val = 0 by omega, partition_zero]
  next rangeSums i hphase =>
    rw [hphase] at h
    obtain ⟨count, h⟩ := h
    split_ifs at hs with hall
    cases hs
    refine ⟨count, writeInv_start hn h.collected fun k => ?_⟩
    have hk := (mem_partition_iff hT k.pos).2 (Eq.refl (getPartitionIdx n k T))
    exact h.sums.all (t := ⟨_, getPartitionIdx_lt k.isLt hT⟩) hall hk.1 hk.2
  next => cases hs
  next => cases hs

theorem step_inv (h : Inv m0 s) {l : Label n T} (hs : step s l = some s') : Inv m0 s' := by
  cases l with
  | thread t o =>
    simp only [step] at hs
    unfold Inv at h
    split at hs
    next thr hphase =>
      rw [hphase] at h
      obtain ⟨thr', hphase', h'⟩ := CollectInv.collectStep hn h hs
      rw [Inv, hphase']
      exact h'
    next i hphase =>
      rw [hphase] at h
      obtain ⟨count, h⟩ := h
      obtain ⟨i', hphase', h'⟩ := PrefixInv.prefixStep hn h hs
      rw [Inv, hphase']
      exact ⟨count, h'⟩
    next rangeSums i hphase =>
      rw [hphase] at h
      obtain ⟨count, h⟩ := h
      obtain ⟨i', hphase', h'⟩ := FinishInv.finishStep hn h hs
      rw [Inv, hphase']
      exact ⟨count, h'⟩
    next todo hphase =>
      rw [hphase] at h
      obtain ⟨count, h⟩ := h
      obtain ⟨todo', hphase', h'⟩ := WriteInv.writeStep h hs
      rw [Inv, hphase']
      exact ⟨count, h'⟩
    next => cases hs
    next => cases hs
  | iterate t order =>
    simp only [step] at hs
    unfold Inv at h
    split at hs
    next thr hphase =>
      rw [hphase] at h
      split at hs
      next i hc =>
        split_ifs at hs with hi
        cases hs
        exact CollectInv.iterate h hc hi.1 hi.2
      next => cases hs
      next => cases hs
    all_goals cases hs
  | barrier => exact barrier_inv hn hT hTn hm h hs

theorem run_inv {parent : Fin n → Fin n} {ls : List (Label n T)} (hs : exec step (start m0 parent) ls = some s) : Inv m0 s :=
  exec_invariant step (fun _ _ _ h hs => step_inv hn hT hTn hm h hs) (inv_start hTn m0 parent) hs

end run

/-- **The result is grouped**, and each instruction was recorded by a thread -/
theorem WriteInv.grouped {todo : Fin T → List (ℕ × MergeInstr n)} (h : WriteInv count s todo) (hall : ∀ t, todo t = []) :
    Grouped s.mergeInstr ∧ ∀ i, ∃ t, ((s.mergeInstr i).root, (s.mergeInstr i).child) ∈ pairs (s.locals t).localCcs := by
  have hc := h.collected
  have hslot : ∀ i : Fin n, ∃ x ∈ allSlots s.locals, place count x = i ∧ s.mergeInstr i = instrOf x := by
    intro i
    obtain ⟨x, hx, hplace⟩ := hc.reserved.exists_place (i.isLt.trans_eq hc.card.symm)
    have hdone := (h.written x hx).resolve_left fun ⟨t, ht⟩ => absurd (hall t ▸ ht) List.not_mem_nil
    rw [hplace, instrAt_of_lt i.isLt] at hdone
    exact ⟨x, hx, hplace, Option.some.inj hdone⟩
  choose x hx hplace hinstr using hslot
  refine ⟨⟨Finite.injective_iff_bijective.1 fun i j hij => ?_, fun i j hij => ?_⟩, fun i => ?_⟩
  · simp only [hinstr, instrOf] at hij
    have hnodup : ((allSlots s.locals).map Slot.item).Nodup := hc.items ▸ Finset.univ.nodup
    have he : x i = x j := Multiset.inj_on_of_nodup_map hnodup _ (hx i) _ (hx j) hij
    exact Fin.ext (by rw [← hplace i, ← hplace j, he])
  · simp only [hinstr, instrOf]
    by_contra hlt
    have := hc.reserved.place_lt_place (hx j) (not_le.1 hlt)
    rw [hplace, hplace] at this
    exact absurd hij (not_le.2 this)
  · obtain ⟨t, -, ht⟩ := Multiset.mem_sum.1 (hx i)
    rw [hinstr]
    exact ⟨t, (slots_sublist _).subset (List.mem_map_of_mem (Multiset.mem_coe.1 ht))⟩

/-! ## The roots -/

/-- the place of a thread in the first phase -/
def Phase.pc (t : Fin T) : Phase n T → Option (Collect n)
  | .collect thr => some (thr t)
  | .prefixSum _ | .single | .finish .. | .write _ | .undefined => none

/-- the union-find under the calls of `find_root`; what has been recorded satisfies Q -/
structure RootInv (priority : Fin n → ℕ) (parent : Fin n → Fin n) (Q : Fin n → Fin n → Prop) (s : St n T) : Prop where
  ord : Ordered (rank priority) s.parent
  root : ∀ v, root s.parent v = root parent v
  finds : ∀ t i child f, s.phase.pc t = some (.find i child f) → f.Inv (rank priority) s.parent child
  recorded : ∀ t, ∀ x ∈ pairs (s.locals t).localCcs, Q x.1 x.2

variable {priority : Fin n → ℕ} {parent : Fin n → Fin n} {Q : Fin n → Fin n → Prop}

theorem rootInv_start (ho : Ordered (rank priority) parent) (m0 : Fin n → MergeInstr n) :
    RootInv priority parent Q (start m0 parent : St n T) :=
  ⟨ho, fun _ => rfl, fun t i child f h => (by cases h), fun t x hx => absurd hx List.not_mem_nil⟩

theorem RootInv.collectStep (h : RootInv priority parent Q s) {thr : Fin T → Collect n} (hphase : s.phase = .collect thr)
    {t : Fin T} {o : Side} (hQ : ∀ i child f p' r, thr t = .find i child f → f.step s.parent o = (p', .inr r) → Q r child)
    (hs : Create.collectStep s thr t o = some s') : RootInv priority parent Q s' := by
  have hfinds : ∀ t' i child f, thr t' = .find i child f → f.Inv (rank priority) s.parent child := fun t' i child f hf =>
    h.finds t' i child f (by rw [hphase, Phase.pc, hf])
  -- only thread t has moved
  have hmoved : ∀ {p' : Fin n → Fin n} {c : Collect n}, Grows s.parent p' →
      (∀ i child f, c = .find i child f → f.Inv (rank priority) p' child) →
      ∀ t' i child f, Phase.pc t' (.collect (Function.update thr t c)) = some (.find i child f) →
        f.Inv (rank priority) p' child := by
    intro p' c hg hc t' i child f hf
    rw [Phase.pc, Option.some.injEq] at hf
    exact Threads.forall_update (Q := fun _ (c : Collect n) => ∀ i child f, c = .find i child f → f.Inv (rank priority) p' child)
      (fun t' i child f hf => (hfinds t' i child f hf).mono hg) hc t' i child f hf
  unfold Create.collectStep at hs
  split at hs
  next i hc =>
    split_ifs at hs
    cases hm : instrAt s.mergeInstr i with
    | none =>
      rw [hm] at hs
      cases hs
      exact ⟨h.ord, h.root, fun t i child f hf => (by cases hf), h.recorded⟩
    | some m =>
      rw [hm] at hs
      cases hs
      refine ⟨h.ord, h.root, hmoved (Grows.refl _) fun i child f hf => ?_, h.recorded⟩
      cases hf
      exact FindPc.inv_start _ _ _
  next i child f hc =>
    obtain ⟨hq, hf⟩ := FindPc.step_spec h.ord (hfinds t i child f hc) o
    rcases hst : f.step s.parent o with ⟨p', f' | r⟩ <;> rw [hst] at hs hq hf <;> cases hs
    · refine ⟨hq.ordered h.ord, fun v => (hq.root_eq h.ord v).trans (h.root v), hmoved (hq.grows h.ord) ?_, h.recorded⟩
      intro i' child' f'' he
      cases he
      exact hf
    · refine ⟨hq.ordered h.ord, fun v => (hq.root_eq h.ord v).trans (h.root v), hmoved (hq.grows h.ord) ?_, ?_⟩
      · intro i' child' f'' he
        cases he
      · refine Threads.forall_update (Q := fun _ (l : Local n) => ∀ x ∈ pairs l.localCcs, Q x.1 x.2) h.recorded fun x hx => ?_
        rcases List.mem_cons.1 ((pairs_pushBack r child _).subset hx) with rfl | hx
        · exact hQ i child f p' r hc hst
        · exact h.recorded t x hx
  next => cases hs
  next cc todo hc =>
    cases hs
    refine ⟨h.ord, h.root, hmoved (Grows.refl _) fun i child f hf => (by cases hf), ?_⟩
    exact Threads.forall_update (Q := fun _ (l : Local n) => ∀ x ∈ pairs l.localCcs, Q x.1 x.2) h.recorded (h.recorded t)

/-- the later phases do not touch the union-find -/
theorem RootInv.frame (h : RootInv priority parent Q s) (hp : s'.parent = s.parent) (hl : s'.locals = s.locals)
    (hphase : ∀ t, s'.phase.pc t = none) : RootInv priority parent Q s' :=
  ⟨hp ▸ h.ord, hp ▸ h.root, fun t i child f hf => (by rw [hphase] at hf; cases hf), hl ▸ h.recorded⟩

theorem RootInv.barrierStep (h : RootInv priority parent Q s) (hs : Create.barrierStep s = some s') :
    RootInv priority parent Q s' := by
  unfold Create.barrierStep at hs
  split at hs <;> (try split_ifs at hs) <;> cases hs <;> exact h.frame rfl rfl fun _ => rfl

theorem RootInv.step (h : RootInv priority parent Q s) {l : Label n T}
    (hQ : ∀ t o i child f p' r, l = .thread t o → s.phase.pc t = some (.find i child f) →
      f.step s.parent o = (p', .inr r) → Q r child)
    (hs : Create.step s l = some s') : RootInv priority parent Q s' := by
  cases l with
  | thread t o =>
    simp only [Create.step] at hs
    split at hs
    next thr hphase =>
      exact h.collectStep hphase (fun i child f p' r hf hst => hQ t o i child f p' r rfl (by rw [hphase, Phase.pc, hf]) hst) hs
    next i hphase =>
      unfold Create.prefixStep at hs
      split_ifs at hs <;> cases hs <;> exact h.frame rfl rfl fun _ => rfl
    next rangeSums i hphase =>
      unfold Create.finishStep at hs
      split_ifs at hs <;> cases hs <;> exact h.frame rfl rfl fun _ => rfl
    next todo hphase =>
      unfold Create.writeStep at hs
      split at hs
      · cases hs
      · split_ifs at hs <;> cases hs <;> exact h.frame rfl rfl fun _ => rfl
    next => cases hs
    next => cases hs
  | iterate t order =>
    simp only [Create.step] at hs
    split at hs
    next thr hphase =>
      split at hs
      next i hc =>
        split_ifs at hs with hi
        cases hs
        refine ⟨h.ord, h.root, fun t' i' child f hf => ?_, ?_⟩
        · rw [Phase.pc, Option.some.injEq] at hf
          by_cases ht : t' = t
          · subst ht
            rw [Function.update_self] at hf
            cases hf
          · rw [Function.update_of_ne ht] at hf
            exact h.finds t' i' child f (by rw [hphase, Phase.pc, hf])
        · refine Threads.forall_update (Q := fun _ (l : Local n) => ∀ x ∈ pairs l.localCcs, Q x.1 x.2) h.recorded fun x hx => ?_
          exact h.recorded t x ((pairs_perm hi.2).subset hx)
      next => cases hs
      next => cases hs
    all_goals cases hs
  | barrier => exact h.barrierStep hs

/-! ## Runs -/

def Collect.FinalLoad (p : Fin n → Fin n) : Collect n → Prop
  | .find _ _ f => f.FinalLoad p
  | .visit _ | .capture _ => True

instance (p : Fin n → Fin n) : (c : Collect n) → Decidable (c.FinalLoad p)
  | .find _ _ f => inferInstanceAs (Decidable (f.FinalLoad p))
  | .visit _ | .capture _ => inferInstanceAs (Decidable True)

/-- a `find_root` that is about to make its last load makes it where the load gives a root -/
def FinalLoad (s : St n T) : Label n T → Prop
  | .thread t _ => ∀ c ∈ s.phase.pc t, c.FinalLoad s.parent
  | .iterate .. | .barrier => True

instance (s : St n T) : (l : Label n T) → Decidable (FinalLoad s l)
  | .thread t _ => inferInstanceAs (Decidable (∀ c ∈ s.phase.pc t, c.FinalLoad s.parent))
  | .iterate .. | .barrier => inferInstanceAs (Decidable True)

/-- each recorded root is in the set of its child -/
theorem RootInv.step_same (h : RootInv priority parent (Same parent) s) {l : Label n T} (hs : Create.step s l = some s') :
    RootInv priority parent (Same parent) s' := by
  refine h.step (fun t o i child f p' r hl hc hst => ?_) hs
  obtain ⟨hq, hr⟩ := FindPc.step_spec h.ord (h.finds t i child f hc) o
  rw [hst] at hq hr
  have hroot := (hq.same_iff h.ord r child).1 hr
  rwa [Same, h.root, h.root] at hroot

theorem run_same (ho : Ordered (rank priority) parent) {ls : List (Label n T)}
    (hs : exec step (start m0 parent) ls = some s) : RootInv priority parent (Same parent) s :=
  exec_invariant step (fun _ _ _ h hs => h.step_same hs) (rootInv_start ho m0) hs

/-- each recorded root is the root of its child, if the call that records it makes its last load where it gives a root -/
theorem RootInv.step_root (h : RootInv priority parent (fun r v => r = ParentForest.root parent v) s) {l : Label n T}
    (hl : FinalLoad s l) (hs : Create.step s l = some s') :
    RootInv priority parent (fun r v => r = ParentForest.root parent v) s' := by
  refine h.step (fun t o i child f p' r he hc hst => ?_) hs
  subst he
  have hr := FindPc.root_of_finalLoad h.ord (h.finds t i child f hc) (hl _ hc) hst
  rw [hr.2, h.root]

theorem run_root (ho : Ordered (rank priority) parent) {ls : List (Label n T)}
    (hl : Meets step FinalLoad (start m0 parent) ls) (hs : exec step (start m0 parent) ls = some s) :
    RootInv priority parent (fun r v => r = root parent v) s :=
  exec_invariant_of_meets step (fun _ _ _ h hl hs => h.step_root hl hs) (rootInv_start ho m0) hl hs

/-- when it returns, the instructions are grouped, and what has been recorded of roots holds of them -/
theorem Inv.grouped {m0 : Fin n → MergeInstr n} (hinv : Inv m0 s) (hd : Done s)
    (hrec : ∀ t, ∀ x ∈ pairs (s.locals t).localCcs, Q x.1 x.2) :
    Grouped s.mergeInstr ∧ ∀ i, Q (s.mergeInstr i).root (s.mergeInstr i).child := by
  unfold Inv at hinv
  unfold Done at hd
  cases hphase : s.phase with
  | write todo =>
    rw [hphase] at hinv hd
    obtain ⟨count, hinv⟩ := hinv
    obtain ⟨hg, hpairs⟩ := hinv.grouped hd
    refine ⟨hg, fun i => ?_⟩
    obtain ⟨t, ht⟩ := hpairs i
    exact hrec t _ ht
  | collect | prefixSum | single | finish | undefined =>
    rw [hphase] at hd
    exact hd.elim

/-- **The counting sort.** However the threads of a team of at most n interleave and whatever order the maps are
iterated in: when `create_merge_instructions` returns, `merge_instr` holds every vertex once, the roots ascend, each is
in the set of its child, and the sets are what they were. If every `find_root` makes its last load where that load gives
a root, each instruction has the root of its child. -/
theorem counting_sort (hn : n < 2 ^ 32) (hT : 0 < T) (hTn : T ≤ n) (hm : Function.Bijective fun i => (m0 i).child)
    (ho : Ordered (rank priority) parent) {ls : List (Label n T)} (hs : exec step (start m0 parent) ls = some s)
    (hd : Done s) :
    Grouped s.mergeInstr ∧ (∀ v, root s.parent v = root parent v) ∧
      (∀ i, Same s.parent (s.mergeInstr i).root (s.mergeInstr i).child) ∧
      (Meets step FinalLoad (start m0 parent) ls →
        ∀ i, (s.mergeInstr i).root = root s.parent (s.mergeInstr i).child) := by
  have hinv := run_inv hn hT hTn hm hs
  have hsame := run_same ho hs
  obtain ⟨hg, hroots⟩ := hinv.grouped hd hsame.recorded
  refine ⟨hg, hsame.root, fun i => ?_, fun hl i => ?_⟩
  · have := hroots i
    rwa [Same, hsame.root, hsame.root]
  · rw [hsame.root]
    exact (hinv.grouped (Q := fun r v => r = root parent v) hd (run_root ho hl hs).recorded).2 i

/-- the instructions before the first grouping -/
def ownInstr (n : ℕ) (i : Fin n) : MergeInstr n := ⟨i, i⟩

theorem ownInstr_bijective (n : ℕ) : Function.Bijective fun i => (ownInstr n i).child := Function.bijective_id

/-- k steps of thread t -/
def threadRun {n : ℕ} (t : Fin 2) (k : ℕ) : List (Label n 2) := List.replicate k (.thread t .left)

/-- two vertices, of which 0 has the parent 1 -/
def pairRun : List (Label 2 2) :=
  List.flatten [threadRun Threads.fst 5, threadRun Threads.snd 5,
    [.iterate Threads.fst [(Threads.snd, [Threads.fst])], .iterate Threads.snd [(Threads.snd, [Threads.snd])]],
    threadRun Threads.snd 1, threadRun Threads.fst 1,
    [.barrier, .barrier, .barrier], threadRun Threads.snd 1, [.barrier], threadRun Threads.fst 1, threadRun Threads.snd 1]

theorem counting_sort_two : ∃ s, exec step (start (ownInstr 2) fun _ => Threads.snd) pairRun = some s ∧
    Grouped s.mergeInstr ∧ ∀ i, (s.mergeInstr i).root = root s.parent (s.mergeInstr i).child := by
  have hrun : ∃ s ∈ exec step (start (ownInstr 2) fun _ => Threads.snd) pairRun, Done s := by decide +kernel
  obtain ⟨s, hs, hd⟩ := hrun
  have ho : Ordered (rank fun u : Fin 2 => u.val) fun _ => Threads.snd := fun u hu => rank_lt_iff.2 (by revert u; decide)
  have h := counting_sort (by norm_num) (by norm_num) le_rfl (ownInstr_bijective 2) ho hs hd
  exact ⟨s, hs, h.1, h.2.2.2 (by decide +kernel)⟩

/-- the priorities under which the chain 3 → 4 → 0 → 1 → 2 → 5 ascends -/
def chainPriority : Fin 6 → ℕ := ![2, 3, 4, 0, 1, 5]

def chainParent : Fin 6 → Fin 6 :=
  ![Threads.nth 1, Threads.nth 2, Threads.nth 5, Threads.nth 4, Threads.nth 0, Threads.nth 5]

/-- thread 0 is in `find_root(0)` while thread 1 passes 0 on its way from 3 -/
def chainRun : List (Label 6 2) :=
  List.flatten [
    -- thread 0 loads parent[0] = 1 and parent[1] = 2; thread 1 halves 3 and then 0; thread 0 loads parent[0] = 2
    threadRun Threads.fst 3, threadRun Threads.snd 14, threadRun Threads.fst 2, threadRun Threads.fst 17,
    threadRun Threads.snd 22,
    [.iterate Threads.fst [(Threads.nth 2, [Threads.nth 0]), (Threads.nth 5, [Threads.nth 1, Threads.nth 2])],
      .iterate Threads.snd [(Threads.nth 5, [Threads.nth 3, Threads.nth 4, Threads.nth 5])]],
    threadRun Threads.fst 2, threadRun Threads.snd 1, [.barrier], threadRun Threads.fst 2, threadRun Threads.snd 2,
    [.barrier, .barrier], threadRun Threads.snd 3, [.barrier], threadRun Threads.fst 3, threadRun Threads.snd 3]

/-- **A wrong root.** The six vertices are one set with the root 5, but the first instruction is {2, 0}: the set lies in
two blocks. -/
theorem wrong_root : Ordered (rank chainPriority) chainParent ∧
    ∃ s ∈ exec step (start (ownInstr 6) chainParent) chainRun, Done s ∧ s.mergeInstr 0 = ⟨2, 0⟩ ∧
      (∀ v, root s.parent v = 5) ∧ ¬ ∀ i, (s.mergeInstr i).root = root s.parent (s.mergeInstr i).child := by
  constructor
  · intro u hu
    rw [rank_lt_iff]
    revert u
    decide
  · decide +kernel

end GraphStreamingCC.Boruvka.Create
