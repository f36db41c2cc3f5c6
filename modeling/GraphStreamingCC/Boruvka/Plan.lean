/-
What the threads of a Boruvka round do for one supernode.

The merge instructions hold every vertex once, grouped by ascending root, so a supernode is an interval of the array:
`lo` to `hi` (`mem_group`). `findLast_eq`: the binary search finds the thread of the last instruction of the group,
`owner`. `threadActs_view` gives the acts of one thread for one root in each of the border cases: none; the sample of a
local sketch, if the group lies within the segment; otherwise the merge of this thread's part into the slot of the
owner, and before it, in the first thread of the group, the number of merges to expect.

`Plan` collects what follows for all threads together, and what round 0 has in common with it: every root present is
sampled locally once, or spread over threads that share a slot of its own, whose parts add up to its supernode.
-/
import Mathlib.Algebra.BigOperators.Pi
import GraphStreamingCC.Boruvka.Round
import GraphStreamingCC.Core.Threads
import GraphStreamingCC.Sketch.Linear

namespace GraphStreamingCC.Boruvka

variable {P : Params} {n T : ℕ} {mergeInstr : Fin n → MergeInstr n} {ρ : Fin n}

/-! ## Groups -/

/-- every vertex once, grouped by ascending root -/
structure Grouped (mergeInstr : Fin n → MergeInstr n) : Prop where
  children : Function.Bijective fun i => (mergeInstr i).child
  ascending : Monotone fun i => (mergeInstr i).root

/-- where the group of root ρ begins -/
def lo (mergeInstr : Fin n → MergeInstr n) (ρ : Fin n) : ℕ := (Finset.univ.filter fun i => (mergeInstr i).root < ρ).card

/-- where it ends -/
def hi (mergeInstr : Fin n → MergeInstr n) (ρ : Fin n) : ℕ := (Finset.univ.filter fun i => (mergeInstr i).root ≤ ρ).card

/-- an initial part of the items is as long as it has items -/
theorem lt_card_iff {Q : Fin n → Prop} [DecidablePred Q] (hQ : ∀ i j, i ≤ j → Q j → Q i) (i : Fin n) :
    i.val < (Finset.univ.filter Q).card ↔ Q i := by
  constructor
  · intro hlt
    by_contra hn
    have hsub : Finset.univ.filter Q ⊆ Finset.Iio i := by
      intro j hj
      rw [Finset.mem_Iio]
      by_contra hle
      exact hn (hQ i j (not_lt.1 hle) (Finset.mem_filter.1 hj).2)
    have := Finset.card_le_card hsub
    rw [Fin.card_Iio] at this
    omega
  · intro hi
    have hsub : Finset.Iic i ⊆ Finset.univ.filter Q := fun j hj =>
      Finset.mem_filter.2 ⟨Finset.mem_univ j, hQ j i (Finset.mem_Iic.1 hj) hi⟩
    have := Finset.card_le_card hsub
    rw [Fin.card_Iic] at this
    omega

theorem Grouped.lt_lo (hg : Grouped mergeInstr) (i : Fin n) : i.val < lo mergeInstr ρ ↔ (mergeInstr i).root < ρ :=
  lt_card_iff (fun _ _ hij hj => (hg.ascending hij).trans_lt hj) i

theorem Grouped.lt_hi (hg : Grouped mergeInstr) (i : Fin n) : i.val < hi mergeInstr ρ ↔ (mergeInstr i).root ≤ ρ :=
  lt_card_iff (fun _ _ hij hj => (hg.ascending hij).trans hj) i

/-- a group is an interval -/
theorem Grouped.mem_group (hg : Grouped mergeInstr) (i : Fin n) :
    (mergeInstr i).root = ρ ↔ lo mergeInstr ρ ≤ i ∧ i.val < hi mergeInstr ρ := by
  rw [hg.lt_hi, ← not_lt, hg.lt_lo, not_lt, and_comm]
  exact le_antisymm_iff

theorem hi_le (mergeInstr : Fin n → MergeInstr n) (ρ : Fin n) : hi mergeInstr ρ ≤ n :=
  (Finset.card_le_univ _).trans_eq (Fintype.card_fin n)

/-- groups follow one another -/
theorem hi_le_lo {ρ' : Fin n} (h : ρ < ρ') : hi mergeInstr ρ ≤ lo mergeInstr ρ' :=
  Finset.card_le_card fun _ hi => Finset.mem_filter.2 ⟨Finset.mem_univ _, (Finset.mem_filter.1 hi).2.trans_lt h⟩

theorem instrAt_of_lt {i : ℕ} (hi : i < n) : instrAt mergeInstr i = some (mergeInstr ⟨i, hi⟩) := dif_pos hi

/-- `merge_instr[i].root == ρ` -/
theorem Grouped.instrAt_root (hg : Grouped mergeInstr) {i : ℕ} :
    (instrAt mergeInstr i).map MergeInstr.root = some ρ ↔ lo mergeInstr ρ ≤ i ∧ i < hi mergeInstr ρ := by
  by_cases h : i < n
  · rw [instrAt_of_lt h, Option.map_some, Option.some.injEq]
    exact hg.mem_group ⟨i, h⟩
  · have := hi_le mergeInstr ρ
    simp only [instrAt, dif_neg h, Option.map_none, reduceCtorEq, false_iff]
    omega

/-! ## The binary search -/

/-- the test of the search: no vertex is the largest id -/
theorem Grouped.before_iff (hg : Grouped mergeInstr) (hn : n < 2 ^ 32) {i : ℕ} (h : i < n) :
    ((instrAt mergeInstr i).any fun m => m.before ρ (2 ^ 32 - 1)) = true ↔ i < hi mergeInstr ρ := by
  have hchild := (mergeInstr ⟨i, h⟩).child.isLt
  rw [instrAt_of_lt h, Option.any_some, hg.lt_hi ⟨i, h⟩, MergeInstr.before, Fin.le_def]
  split_ifs with he
  · simp only [decide_eq_true_eq]
    omega
  · simp only [decide_eq_true_eq]
    omega

theorem searchLoop_eq (hg : Grouped mergeInstr) (hn : n < 2 ^ 32) {fuel a b : ℕ} (hab : a ≤ b) (hb : b < n)
    (hfuel : b - a ≤ fuel) (ha : a ≤ hi mergeInstr ρ) :
    searchLoop mergeInstr ρ fuel a b = min (hi mergeInstr ρ) b := by
  induction fuel generalizing a b with
  | zero =>
    rw [searchLoop]
    omega
  | succ fuel ih =>
    rw [searchLoop]
    split_ifs with hlt
    · simp only
      have hmid : ((instrAt mergeInstr (a + (b - a) / 2)).any fun m => m.before ρ (2 ^ 32 - 1)) = true ↔
          a + (b - a) / 2 < hi mergeInstr ρ := hg.before_iff hn (by omega)
      split_ifs with hbefore
      · rw [hmid] at hbefore
        exact ih (by omega) hb (by omega) (by omega)
      · rw [hmid] at hbefore
        rw [ih (by omega) (by omega) (by omega) (by omega)]
        omega
    · omega

/-- the thread of the last instruction of the group -/
def owner (mergeInstr : Fin n → MergeInstr n) (T : ℕ) (ρ : Fin n) : ℕ := getPartitionIdx n (hi mergeInstr ρ - 1) T

theorem findLast_eq (hg : Grouped mergeInstr) (hn : n < 2 ^ 32) {minHint : ℕ} (hmin : minHint < hi mergeInstr ρ)
    (hne : lo mergeInstr ρ < hi mergeInstr ρ) :
    findLastPartitionOfRoot mergeInstr ρ minHint T = owner mergeInstr T ρ := by
  have hle := hi_le mergeInstr ρ
  rw [findLastPartitionOfRoot, searchLoop_eq hg hn (by omega) (by omega) (by omega) hmin.le, owner]
  congr 1
  split_ifs with h
  · rw [ne_eq, hg.instrAt_root] at h
    omega
  · rw [not_not, hg.instrAt_root] at h
    omega

/-! ## The loop of a thread -/

def Act.root : Act P n → Option (Fin n)
  | .sampleVertex v => some v
  | .sampleLocal root _ | .setNeeded _ root _ | .mergeGlobal _ root _ => some root
  | .undefined => none

/-- the element of `global_merges` that an act uses -/
def Act.globalId : Act P n → Option ℕ
  | .setNeeded globalId .. | .mergeGlobal globalId .. => some globalId
  | .sampleVertex _ | .sampleLocal .. | .undefined => none

/-- the acts that concern root ρ -/
def view (ρ : Fin n) (acts : List (Act P n)) : List (Act P n) := acts.filter fun a => a.root = some ρ

theorem view_append (ρ : Fin n) (l l' : List (Act P n)) : view ρ (l ++ l') = view ρ l ++ view ρ l' := List.filter_append ..

theorem view_cons (ρ : Fin n) (a : Act P n) (l : List (Act P n)) :
    view ρ (a :: l) = if a.root = some ρ then a :: view ρ l else view ρ l := by
  simp only [view, List.filter_cons, decide_eq_true_eq]

@[simp] theorem view_nil (ρ : Fin n) : view ρ ([] : List (Act P n)) = [] := rfl

/-- the vertices of root ρ among some instructions, merged into a fresh local sketch -/
def pieceOf (sketches : Fin n → Sketch P) (r : ℕ) (ms : List (MergeInstr n)) (ρ : Fin n) : Sketch P :=
  (ms.filter fun m => m.root = ρ).foldl (fun skt m => skt.rangeMerge (sketches m.child) r 1) (.empty P)

section scan

variable {sketches : Fin n → Sketch P} {r thrId : ℕ} {ms : List (MergeInstr n)} {m m0 : MergeInstr n}

theorem pieceOf_snoc_self (sketches : Fin n → Sketch P) (r : ℕ) (ms : List (MergeInstr n)) (m : MergeInstr n) :
    pieceOf sketches r (ms ++ [m]) m.root = (pieceOf sketches r ms m.root).rangeMerge (sketches m.child) r 1 := by
  simp [pieceOf, List.filter_append]

theorem pieceOf_snoc_ne (sketches : Fin n → Sketch P) (r : ℕ) (ms : List (MergeInstr n)) (h : m.root ≠ ρ) :
    pieceOf sketches r (ms ++ [m]) ρ = pieceOf sketches r ms ρ := by
  simp [pieceOf, List.filter_append, h]

theorem pieceOf_absent (sketches : Fin n → Sketch P) (r : ℕ) (h : ρ ∉ ms.map MergeInstr.root) :
    pieceOf sketches r ms ρ = .empty P := by
  have hnil : ms.filter (fun m => m.root = ρ) = [] := by
    rw [List.filter_eq_nil_iff]
    intro m hm he
    exact h (List.mem_map.2 ⟨m, hm, of_decide_eq_true he⟩)
  rw [pieceOf, hnil]
  rfl

/-- the root that the loop is at after these instructions -/
def lastRoot (m0 : MergeInstr n) (ms : List (MergeInstr n)) : Fin n := (ms.getLast?.map MergeInstr.root).getD m0.root

theorem lastRoot_snoc : lastRoot m0 (ms ++ [m]) = m.root := by
  simp [lastRoot]

theorem lastRoot_mem (hne : ms ≠ []) : lastRoot m0 ms ∈ ms.map MergeInstr.root := by
  rw [lastRoot, List.getLast?_eq_some_getLast hne]
  exact List.mem_map.2 ⟨_, List.getLast_mem hne, rfl⟩

theorem le_lastRoot (hsorted : (ms.map MergeInstr.root).Pairwise (· ≤ ·)) (hρ : ρ ∈ ms.map MergeInstr.root) :
    ρ ≤ lastRoot m0 ms := by
  induction ms using List.reverseRecOn with
  | nil => simp at hρ
  | append_singleton ms m _ =>
    rw [List.map_append, List.pairwise_append] at hsorted
    rw [lastRoot_snoc]
    rw [List.map_append, List.mem_append] at hρ
    rcases hρ with hρ | hρ
    · exact hsorted.2.2 ρ hρ m.root (by simp)
    · exact (List.mem_singleton.1 hρ).le

/-- what the loop does with a group that ends inside the segment -/
def emitted (sketches : Fin n → Sketch P) (r thrId : ℕ) (ms : List (MergeInstr n)) (left : Bool) (ρ : Fin n) : Act P n :=
  if left then .mergeGlobal thrId ρ (pieceOf sketches r ms ρ) else .sampleLocal ρ (pieceOf sketches r ms ρ)

theorem view_emitted (left : Bool) (ρ ρ' : Fin n) : view ρ [emitted sketches r thrId ms left ρ'] =
    if ρ' = ρ then [emitted sketches r thrId ms left ρ'] else [] := by
  have hroot : (emitted sketches r thrId ms left ρ').root = some ρ' := by
    unfold emitted
    split_ifs <;> rfl
  simp [view_cons, hroot]

/-- **The loop of a thread**, from `m0` on: the group it is in has been merged into the local sketch, and each group
behind it has left one act. -/
theorem scan_spec (sketches : Fin n → Sketch P) (r thrId : ℕ) (hfirst : ∀ m ∈ ms.head?, m = m0)
    (hsorted : (ms.map MergeInstr.root).Pairwise (· ≤ ·)) (left : Bool) :
    ∃ acts, ms.foldl (Scan.visit sketches r thrId) ⟨[], m0.root, left, .empty P⟩ =
        ⟨acts, lastRoot m0 ms, left && m0.root == lastRoot m0 ms, pieceOf sketches r ms (lastRoot m0 ms)⟩ ∧
      ∀ ρ, view ρ acts = if ρ ∈ ms.map MergeInstr.root ∧ ρ ≠ lastRoot m0 ms then
        [emitted sketches r thrId ms (left && m0.root == ρ) ρ] else [] := by
  induction ms using List.reverseRecOn with
  | nil => exact ⟨[], by simp [lastRoot, pieceOf], fun ρ => by simp⟩
  | append_singleton ms m ih =>
    rw [List.map_append, List.pairwise_append] at hsorted
    obtain ⟨hs, -, hle⟩ := hsorted
    have hfirst' : ∀ m ∈ ms.head?, m = m0 := by
      intro x hx
      refine hfirst x ?_
      rw [List.head?_append, hx]
      rfl
    obtain ⟨acts, hfold, hview⟩ := ih hfirst' hs
    rw [List.foldl_append, hfold, List.foldl_cons, List.foldl_nil, lastRoot_snoc]
    by_cases hroot : m.root = lastRoot m0 ms
    · -- the group goes on
      refine ⟨acts, ?_, fun ρ => ?_⟩
      · simp only [Scan.visit, hroot, ne_eq, not_true_eq_false, if_false]
        rw [← hroot, pieceOf_snoc_self]
      · rw [hview, ← hroot]
        by_cases hρ : ρ = m.root
        · simp [hρ]
        · simp only [List.map_append, List.mem_append, List.map_cons, List.map_nil, List.mem_singleton, hρ, or_false,
            emitted, pieceOf_snoc_ne sketches r ms (Ne.symm hρ)]
    · -- a new group begins, behind all that was before
      have hne : ms ≠ [] := by
        rintro rfl
        exact hroot (by rw [hfirst m (by simp)]; rfl)
      have hlt : lastRoot m0 ms < m.root := lt_of_le_of_ne (hle _ (lastRoot_mem hne) m.root (by simp)) (Ne.symm hroot)
      have habsent : m.root ∉ ms.map MergeInstr.root := fun hm => absurd (le_lastRoot hs hm) hlt.not_ge
      have hhead : m0.root ≠ m.root := by
        intro he
        obtain ⟨x, xs, rfl⟩ := List.exists_cons_of_ne_nil hne
        rw [← hfirst' x rfl] at he
        exact habsent (he ▸ by simp)
      refine ⟨acts ++ [emitted sketches r thrId ms (left && m0.root == lastRoot m0 ms) (lastRoot m0 ms)], ?_, fun ρ => ?_⟩
      · have hpiece : pieceOf sketches r (ms ++ [m]) m.root = (Sketch.empty P).rangeMerge (sketches m.child) r 1 := by
          rw [pieceOf_snoc_self, pieceOf_absent sketches r habsent]
        simp only [Scan.visit, ne_eq, hroot, not_false_eq_true, if_true]
        rw [hpiece, beq_false_of_ne hhead, Bool.and_false]
        rfl
      · rw [view_append, hview]
        by_cases hρ : ρ = m.root
        · rw [if_neg fun h => habsent (hρ ▸ h.1), if_neg fun h => h.2 hρ, view_emitted, if_neg (by rw [hρ]; exact hlt.ne),
            List.append_nil]
        · have hmem : (ρ ∈ (ms ++ [m]).map MergeInstr.root ∧ ρ ≠ m.root) ↔ ρ ∈ ms.map MergeInstr.root := by
            simp [hρ]
          have hemit : ∀ b, emitted sketches r thrId (ms ++ [m]) b ρ = emitted sketches r thrId ms b ρ := fun b => by
            rw [emitted, emitted, pieceOf_snoc_ne sketches r ms (Ne.symm hρ)]
          simp only [hmem, hemit, view_emitted]
          by_cases hl : lastRoot m0 ms = ρ
          · subst hl
            simp [lastRoot_mem hne]
          · rw [if_neg hl, List.append_nil]
            simp only [Ne.symm hl, ne_eq, not_false_eq_true, and_true]

end scan

/-! ## The acts of a thread for one root -/

/-- the vertices of root ρ in the range from a to b, merged into a fresh local sketch -/
def pieceIn (mergeInstr : Fin n → MergeInstr n) (sketches : Fin n → Sketch P) (r a b : ℕ) (ρ : Fin n) : Sketch P :=
  pieceOf sketches r ((loopRange n a b).map mergeInstr) ρ

section threadActs

variable (hg : Grouped mergeInstr) {t : ℕ} {ρ : Fin n}
include hg

/-- `root_from_left`, while the loop is in the group of ρ -/
theorem Grouped.fromLeft_iff {a : ℕ} (ha : a < n) :
    (decide (0 < a) && (instrAt mergeInstr (a - 1)).map MergeInstr.root == some (mergeInstr ⟨a, ha⟩).root &&
      (mergeInstr ⟨a, ha⟩).root == ρ) = true ↔ lo mergeInstr ρ < a ∧ a < hi mergeInstr ρ := by
  rw [Bool.and_eq_true, Bool.and_eq_true, decide_eq_true_eq, beq_iff_eq, beq_iff_eq]
  constructor
  · rintro ⟨⟨h0, hl⟩, rfl⟩
    have h1 := hg.instrAt_root.1 hl
    have h2 := (hg.mem_group ⟨a, ha⟩).1 rfl
    simp only at h2
    omega
  · rintro ⟨h1, h2⟩
    have hroot : (mergeInstr ⟨a, ha⟩).root = ρ := (hg.mem_group ⟨a, ha⟩).2 ⟨h1.le, h2⟩
    refine ⟨⟨by omega, ?_⟩, hroot⟩
    rw [hroot, hg.instrAt_root]
    omega

/-- `root_exits_right`, if the loop ends in the group of ρ -/
theorem Grouped.exitsRight_iff {b : ℕ} (hb : 0 < b) (hbn : b - 1 < n) (hroot : (mergeInstr ⟨b - 1, hbn⟩).root = ρ) :
    (decide (b < n) && (instrAt mergeInstr (b - 1)).map MergeInstr.root ==
      (instrAt mergeInstr b).map MergeInstr.root) = true ↔ b < hi mergeInstr ρ := by
  have hgroup := (hg.mem_group ⟨b - 1, hbn⟩).1 hroot
  have hle := hi_le mergeInstr ρ
  simp only at hgroup
  rw [Bool.and_eq_true, decide_eq_true_eq, beq_iff_eq, instrAt_of_lt hbn, Option.map_some, hroot, eq_comm,
    hg.instrAt_root]
  omega

/-- the loop of a thread over the range from a to b: it ends in the group of the last instruction -/
theorem segment_fold {a b : ℕ} (hab : a < b) (hb : b ≤ n) (t : ℕ) (sketches : Fin n → Sketch P) (r : ℕ) :
    ∃ L acts, lo mergeInstr L < b ∧ b ≤ hi mergeInstr L ∧ (mergeInstr ⟨b - 1, by omega⟩).root = L ∧
      ((loopRange n a b).map mergeInstr).foldl (Scan.visit sketches r t) ⟨[], (mergeInstr ⟨a, by omega⟩).root,
        decide (0 < a) && (instrAt mergeInstr (a - 1)).map MergeInstr.root == some (mergeInstr ⟨a, by omega⟩).root, .empty P⟩ =
        ⟨acts, L, lo mergeInstr L < a, pieceIn mergeInstr sketches r a b L⟩ ∧
      ∀ ρ, view ρ acts =
        if max a (lo mergeInstr ρ) < min b (hi mergeInstr ρ) ∧ ρ ≠ L then
          [if lo mergeInstr ρ < a then .mergeGlobal t ρ (pieceIn mergeInstr sketches r a b ρ)
            else .sampleLocal ρ (pieceIn mergeInstr sketches r a b ρ)] else [] := by
  have han : a < n := by omega
  have hbn : b - 1 < n := by omega
  have hfirst : ∀ m ∈ ((loopRange n a b).map mergeInstr).head?, m = mergeInstr ⟨a, han⟩ := by
    rw [loopRange_cons hab han]
    intro m hm
    cases hm
    rfl
  have hsorted : (((loopRange n a b).map mergeInstr).map MergeInstr.root).Pairwise (· ≤ ·) := by
    rw [List.map_map]
    exact List.Pairwise.map _ (fun i j hij => hg.ascending hij.le) pairwise_loopRange
  have hmem : ∀ ρ, ρ ∈ ((loopRange n a b).map mergeInstr).map MergeInstr.root ↔
      max a (lo mergeInstr ρ) < min b (hi mergeInstr ρ) := by
    intro ρ
    simp only [List.mem_map, exists_exists_and_eq_and, mem_loopRange, hg.mem_group]
    constructor
    · rintro ⟨i, h1, h2⟩
      omega
    · intro h
      have := hi_le mergeInstr ρ
      exact ⟨⟨max a (lo mergeInstr ρ), by omega⟩, by simp only; omega, by simp only; omega⟩
  have hlast : lastRoot (mergeInstr ⟨a, han⟩) ((loopRange n a b).map mergeInstr) = (mergeInstr ⟨b - 1, hbn⟩).root := by
    conv_lhs => rw [show b = b - 1 + 1 by omega, loopRange_snoc (by omega) hbn, List.map_append]
    exact lastRoot_snoc
  have hL := (hg.mem_group ⟨b - 1, hbn⟩).1 rfl
  simp only at hL
  obtain ⟨acts, hfold, hview⟩ := scan_spec sketches r t hfirst hsorted
    (decide (0 < a) && (instrAt mergeInstr (a - 1)).map MergeInstr.root == some (mergeInstr ⟨a, han⟩).root)
  rw [hlast] at hfold hview
  have hleft : ∀ ρ, (decide (0 < a) && (instrAt mergeInstr (a - 1)).map MergeInstr.root == some (mergeInstr ⟨a, han⟩).root &&
      (mergeInstr ⟨a, han⟩).root == ρ) = decide (lo mergeInstr ρ < a ∧ a < hi mergeInstr ρ) := fun ρ => by
    rw [Bool.eq_iff_iff, hg.fromLeft_iff han, decide_eq_true_eq]
  refine ⟨(mergeInstr ⟨b - 1, hbn⟩).root, acts, by omega, by omega, rfl, ?_, fun ρ => ?_⟩
  · rw [hfold]
    congr 1
    rw [hleft, decide_eq_decide]
    omega
  · rw [hview]
    by_cases hρ : max a (lo mergeInstr ρ) < min b (hi mergeInstr ρ) ∧ ρ ≠ (mergeInstr ⟨b - 1, hbn⟩).root
    · have hiff : (lo mergeInstr ρ < a ∧ a < hi mergeInstr ρ) ↔ lo mergeInstr ρ < a := by omega
      rw [if_pos ⟨(hmem ρ).2 hρ.1, hρ.2⟩, if_pos hρ, emitted, hleft]
      simp only [hiff, decide_eq_true_eq, pieceIn]
    · rw [if_neg fun h => hρ ⟨(hmem ρ).1 h.1, h.2⟩, if_neg hρ]

/-- the acts of a thread with the range from a to b: L is the root of the last instruction -/
theorem segmentActs_scan {a b : ℕ} (hab : a < b) (hb : b ≤ n) (T t : ℕ) (sketches : Fin n → Sketch P) (r : ℕ) :
    ∃ L acts, lo mergeInstr L < b ∧ b ≤ hi mergeInstr L ∧
      segmentActs mergeInstr sketches r T t a b = Scan.finish mergeInstr T t a (b < hi mergeInstr L)
        ⟨acts, L, lo mergeInstr L < a, pieceIn mergeInstr sketches r a b L⟩ ∧
      ∀ ρ, view ρ acts =
        if max a (lo mergeInstr ρ) < min b (hi mergeInstr ρ) ∧ ρ ≠ L then
          [if lo mergeInstr ρ < a then .mergeGlobal t ρ (pieceIn mergeInstr sketches r a b ρ)
            else .sampleLocal ρ (pieceIn mergeInstr sketches r a b ρ)] else [] := by
  obtain ⟨L, acts, hL1, hL2, hroot, hfold, hview⟩ := segment_fold hg hab hb t sketches r
  refine ⟨L, acts, hL1, hL2, ?_, hview⟩
  have hexits := hg.exitsRight_iff (by omega) (by omega) hroot
  simp only [segmentActs, instrAt_of_lt (show a < n by omega), hfold]
  congr 1
  rw [Bool.eq_iff_iff, hexits, decide_eq_true_eq]

/-- the thread of the first instruction of the group -/
def first (mergeInstr : Fin n → MergeInstr n) (T : ℕ) (ρ : Fin n) : ℕ := getPartitionIdx n (lo mergeInstr ρ) T

/-- the part of a supernode in the segment of thread t -/
def piece (mergeInstr : Fin n → MergeInstr n) (sketches : Fin n → Sketch P) (r T t : ℕ) (ρ : Fin n) : Sketch P :=
  pieceIn mergeInstr sketches r (getIthPartition n t T).1 (getIthPartition n t T).2 ρ

/-! ### The borders of a group and of a segment -/

section borders

variable {T t : ℕ} {ρ : Fin n}

omit hg in
theorem owner_lt (hT : 0 < T) (hne : lo mergeInstr ρ < hi mergeInstr ρ) : owner mergeInstr T ρ < T := by
  have hle := hi_le mergeInstr ρ
  exact getPartitionIdx_lt (by omega) hT

omit hg in
theorem lo_lt_start (hT : 0 < T) (hn0 : 0 < n) : lo mergeInstr ρ < (getIthPartition n t T).1 ↔ first mergeInstr T ρ < t := by
  rw [← not_le, start_le_iff hT hn0, not_le]
  rfl

omit hg in
theorem lo_lt_stop (hT : 0 < T) (hn0 : 0 < n) : lo mergeInstr ρ < (getIthPartition n t T).2 ↔ first mergeInstr T ρ ≤ t := by
  rw [← not_le, stop_le_iff hT hn0, not_lt]
  rfl

omit hg in
theorem start_lt_hi (hT : 0 < T) (hn0 : 0 < n) (hne : lo mergeInstr ρ < hi mergeInstr ρ) :
    (getIthPartition n t T).1 < hi mergeInstr ρ ↔ t ≤ owner mergeInstr T ρ := by
  rw [owner, ← start_le_iff hT hn0]
  omega

omit hg in
theorem stop_lt_hi (hT : 0 < T) (hn0 : 0 < n) (hne : lo mergeInstr ρ < hi mergeInstr ρ) :
    (getIthPartition n t T).2 < hi mergeInstr ρ ↔ t < owner mergeInstr T ρ := by
  rw [owner, ← stop_le_iff hT hn0]
  omega

omit hg in
/-- what comes after the loop concerns its last root only -/
theorem view_finish_of_ne {sc : Scan P n} (hρ : ρ ≠ sc.curRoot) (T t a : ℕ) (rootExitsRight : Bool) :
    view ρ (sc.finish mergeInstr T t a rootExitsRight) = view ρ sc.acts := by
  have hne : sc.curRoot ≠ ρ := Ne.symm hρ
  unfold Scan.finish
  split_ifs <;> simp [view_append, view_cons, Act.root, hne]

omit hg in
/-- the group of the last root: it goes on, or has begun, outside of the segment exactly if it is spread over threads -/
theorem view_finish_self {acts : List (Act P n)} {skt : Sketch P} {a b : ℕ} (hnil : view ρ acts = []) (ht : t < 2 ^ 32)
    (howner : owner mergeInstr T ρ < 2 ^ 32) (hlow : first mergeInstr T ρ ≤ t) (hhigh : t ≤ owner mergeInstr T ρ)
    (hlo : lo mergeInstr ρ < a ↔ first mergeInstr T ρ < t) (hhi : b < hi mergeInstr ρ ↔ t < owner mergeInstr T ρ)
    (hlast : findLastPartitionOfRoot mergeInstr ρ a T = owner mergeInstr T ρ) :
    view ρ (Scan.finish mergeInstr T t a (b < hi mergeInstr ρ) ⟨acts, ρ, lo mergeInstr ρ < a, skt⟩) =
      if first mergeInstr T ρ < owner mergeInstr T ρ then
        (if first mergeInstr T ρ < t then []
          else [.setNeeded (owner mergeInstr T ρ) ρ (owner mergeInstr T ρ - first mergeInstr T ρ + 1)]) ++
          [.mergeGlobal (owner mergeInstr T ρ) ρ skt]
      else [.sampleLocal ρ skt] := by
  have hneeded : (owner mergeInstr T ρ + 2 ^ 64 - t + 1) % 2 ^ 64 = owner mergeInstr T ρ - t + 1 := by
    rw [show owner mergeInstr T ρ + 2 ^ 64 - t + 1 = owner mergeInstr T ρ - t + 1 + 2 ^ 64 by omega,
      Nat.add_mod_right, Nat.mod_eq_of_lt (by omega)]
  simp only [Scan.finish, Bool.or_eq_true, decide_eq_true_eq, hlo, hhi, hlast, hneeded]
  by_cases hspan : first mergeInstr T ρ < owner mergeInstr T ρ
  · rw [if_pos (show t < owner mergeInstr T ρ ∨ first mergeInstr T ρ < t by omega), if_pos hspan, view_append,
      view_append, hnil]
    by_cases hleft : first mergeInstr T ρ < t
    · simp [hleft, view_cons, Act.root]
    · simp [view_cons, Act.root, show first mergeInstr T ρ = t by omega]
  · rw [if_neg (show ¬ (t < owner mergeInstr T ρ ∨ first mergeInstr T ρ < t) by omega), if_neg hspan, view_append, hnil]
    simp [view_cons, Act.root]

end borders

/-- **The acts of thread t for root ρ.** -/
theorem threadActs_view (hn : n < 2 ^ 32) (hTn : T ≤ n) (ht : t < T) (sketches : Fin n → Sketch P) (r : ℕ) (ρ : Fin n) :
    view ρ (threadActs mergeInstr sketches r T t) =
      if lo mergeInstr ρ < hi mergeInstr ρ ∧ first mergeInstr T ρ ≤ t ∧ t ≤ owner mergeInstr T ρ then
        if first mergeInstr T ρ < owner mergeInstr T ρ then
          (if first mergeInstr T ρ < t then []
            else [.setNeeded (owner mergeInstr T ρ) ρ (owner mergeInstr T ρ - first mergeInstr T ρ + 1)]) ++
            [.mergeGlobal (owner mergeInstr T ρ) ρ (piece mergeInstr sketches r T t ρ)]
        else [.sampleLocal ρ (piece mergeInstr sketches r T t ρ)]
      else [] := by
  have hT : 0 < T := by omega
  have hn0 : 0 < n := by omega
  have hab := partition_nonempty (t := t) hTn hT
  have hbn := partition_le (n := n) ht
  obtain ⟨L, acts, hL1, hL2, hacts, hview⟩ := segmentActs_scan hg hab hbn T t sketches r
  rw [threadActs, hacts, piece]
  by_cases hρ : ρ = L
  · -- the last group of the segment
    subst hρ
    have hne : lo mergeInstr ρ < hi mergeInstr ρ := by omega
    have hlow := (lo_lt_stop hT hn0).1 hL1
    have hstart : (getIthPartition n t T).1 < hi mergeInstr ρ := by omega
    have hhigh := (start_lt_hi hT hn0 hne).1 hstart
    have howner := owner_lt hT hne
    rw [if_pos ⟨hne, hlow, hhigh⟩]
    exact view_finish_self ((hview ρ).trans (if_neg fun h => h.2 rfl)) (by omega) (by omega) hlow hhigh (lo_lt_start hT hn0)
      (stop_lt_hi hT hn0 hne) (findLast_eq hg hn (by omega) hne)
  · -- a group before the last one, or none
    rw [view_finish_of_ne hρ, hview]
    have hend : max (getIthPartition n t T).1 (lo mergeInstr ρ) < min (getIthPartition n t T).2 (hi mergeInstr ρ) →
        hi mergeInstr ρ < (getIthPartition n t T).2 := by
      intro hin
      rcases lt_or_gt_of_ne hρ with h | h
      · have : hi mergeInstr _ ≤ lo mergeInstr _ := hi_le_lo h
        omega
      · have : hi mergeInstr _ ≤ lo mergeInstr _ := hi_le_lo h
        omega
    by_cases hin : lo mergeInstr ρ < hi mergeInstr ρ ∧ first mergeInstr T ρ ≤ t ∧ t ≤ owner mergeInstr T ρ
    · have hmax : max (getIthPartition n t T).1 (lo mergeInstr ρ) < min (getIthPartition n t T).2 (hi mergeInstr ρ) := by
        have hlow := (lo_lt_stop hT hn0).2 hin.2.1
        have hhigh := (start_lt_hi hT hn0 hin.1).2 hin.2.2
        omega
      have hown : owner mergeInstr T ρ = t := by
        have hlast : ¬ t < owner mergeInstr T ρ := (stop_lt_hi hT hn0 hin.1).not.1 (hend hmax).not_gt
        omega
      rw [if_pos ⟨hmax, hρ⟩, if_pos hin, hown]
      simp only [lo_lt_start hT hn0]
      by_cases hleft : first mergeInstr T ρ < t
      · simp [hleft]
      · simp [hleft]
    · rw [if_neg hin, if_neg]
      rintro ⟨hmax, -⟩
      have hne : lo mergeInstr ρ < hi mergeInstr ρ := by omega
      have hlow : lo mergeInstr ρ < (getIthPartition n t T).2 := by omega
      have hhigh : (getIthPartition n t T).1 < hi mergeInstr ρ := by omega
      exact hin ⟨hne, (lo_lt_stop hT hn0).1 hlow, (start_lt_hi hT hn0 hne).1 hhigh⟩

end threadActs

/-! ## All threads together -/

/-- the sketch that an act passes on -/
def Act.sketch (sketches : Fin n → Sketch P) : Act P n → Option (Sketch P)
  | .sampleVertex v => some (sketches v)
  | .sampleLocal _ skt | .mergeGlobal _ _ skt => some skt
  | .setNeeded .. | .undefined => none

def Act.isMerge : Act P n → Bool
  | .mergeGlobal .. => true
  | _ => false

def Act.isSample : Act P n → Bool
  | .sampleVertex _ | .sampleLocal .. => true
  | _ => false

/-- the merges into a slot for root ρ among these acts -/
def merges (ρ : Fin n) (acts : List (Act P n)) : ℕ := (view ρ acts).countP Act.isMerge

/-- the samples without such a merge -/
def samples (ρ : Fin n) (acts : List (Act P n)) : ℕ := (view ρ acts).countP Act.isSample

/-- what these acts bring to the supernode of root ρ -/
def content (sketches : Fin n → Sketch P) (ρ : Fin n) (acts : List (Act P n)) : Content P :=
  ((view ρ acts).map fun a => (a.sketch sketches).elim 0 Sketch.buckets).sum

/-- the threads that the supernode of root ρ is spread over, if it has a slot -/
def width (progs : Fin T → List (Act P n)) (ρ : Fin n) : ℕ := ∑ t, merges ρ (progs t)

/-- what a thread can have to do for a root -/
inductive Shape (slot : ℕ) (ρ : Fin n) (needed : ℕ) : List (Act P n) → Prop
  | nothing : Shape slot ρ needed []
  | vertex : Shape slot ρ needed [.sampleVertex ρ]
  | localSketch (skt : Sketch P) : Shape slot ρ needed [.sampleLocal ρ skt]
  | part (skt : Sketch P) : Shape slot ρ needed [.mergeGlobal slot ρ skt]
  | firstPart (skt : Sketch P) : Shape slot ρ needed [.setNeeded slot ρ needed, .mergeGlobal slot ρ skt]

/-- the programs of the threads of round r sample each root present once, spread or not, with its total -/
structure Plan (r : ℕ) (sketches : Fin n → Sketch P) (progs : Fin T → List (Act P n)) (present : Fin n → Prop)
    (slot : Fin n → ℕ) (total : Fin n → Content P) : Prop where
  shape : ∀ t ρ, Shape (slot ρ) ρ (width progs ρ) (view ρ (progs t))
  once : ∀ ρ, present ρ → ∑ t, samples ρ (progs t) + min 1 (width progs ρ) = 1
  absent : ∀ ρ, ¬ present ρ → ∀ t, view ρ (progs t) = []
  announced : ∀ ρ, 0 < width progs ρ → ∃ t skt, view ρ (progs t) =
    [.setNeeded (slot ρ) ρ (width progs ρ), .mergeGlobal (slot ρ) ρ skt]
  bounded : ∀ ρ, width progs ρ < 2 ^ 64 - 1
  slots : ∀ ρ ρ', 0 < width progs ρ → 0 < width progs ρ' → slot ρ = slot ρ' → ρ = ρ'
  sum : r < P.numSamples → ∀ ρ, present ρ → ∀ b, Sketch.InWindow P r b →
    ∑ t, content sketches ρ (progs t) b = total ρ b
  idx : ∀ t, ∀ a ∈ progs t, ∀ skt ∈ a.sketch sketches, skt.sampleIdx = min r P.numSamples
  safe : ∀ t, Act.undefined ∉ progs t

/-- the buckets of a supernode -/
def supernode (mergeInstr : Fin n → MergeInstr n) (sketches : Fin n → Sketch P) (ρ : Fin n) : Content P :=
  ∑ i with (mergeInstr i).root = ρ, (sketches (mergeInstr i).child).buckets

section laterRounds

variable {sketches : Fin n → Sketch P} {r t : ℕ}

theorem Scan.visit_safe {sc : Scan P n} (h : Act.undefined ∉ sc.acts) (r thrId : ℕ) (m : MergeInstr n) :
    Act.undefined ∉ (sc.visit sketches r thrId m).acts := by
  simp only [Scan.visit]
  split_ifs
  · simp [h]
  · simp [h]
  · exact h

/-- a thread with an item stays within the array -/
theorem segmentActs_safe {a b T : ℕ} (ha : a < n) : Act.undefined ∉ segmentActs mergeInstr sketches r T t a b := by
  have hscan : ∀ (ms : List (MergeInstr n)) (sc : Scan P n), Act.undefined ∉ sc.acts →
      Act.undefined ∉ (ms.foldl (Scan.visit sketches r t) sc).acts := by
    intro ms
    induction ms with
    | nil => exact fun sc h => h
    | cons m ms ih => exact fun sc h => ih _ (Scan.visit_safe h r t m)
  simp only [segmentActs, instrAt_of_lt ha, Scan.finish]
  have h := hscan ((loopRange n a b).map mergeInstr) ⟨[], (mergeInstr ⟨a, ha⟩).root, decide (0 < a) &&
    (instrAt mergeInstr (a - 1)).map MergeInstr.root == some (mergeInstr ⟨a, ha⟩).root, .empty P⟩ List.not_mem_nil
  split_ifs <;> simp [h]

theorem piece_buckets (hr : r < P.numSamples) {b : Fin P.numBuckets} (hb : Sketch.InWindow P r b) (hT : 0 < T)
    (hn : 0 < n) : (piece mergeInstr sketches r T t ρ).buckets b =
      ∑ i with getPartitionIdx n i.val T = t ∧ (mergeInstr i).root = ρ, (sketches (mergeInstr i).child).buckets b := by
  rw [piece, pieceIn, pieceOf, Sketch.foldl_rangeMerge_buckets _ _ _ hr hb, List.filter_map, List.map_map]
  have hsum := sum_loopRange (a := (getIthPartition n t T).1) (b := (getIthPartition n t T).2)
    (fun i => (mergeInstr i).root = ρ) fun i => (sketches (mergeInstr i).child).buckets b
  simp only [mem_partition_iff hT hn] at hsum
  rw [← hsum]
  exact zero_add _

theorem piece_sampleIdx (sketches : Fin n → Sketch P) {i : Fin n} (hT : 0 < T)
    (hi : getPartitionIdx n i.val T = t) (hρ : (mergeInstr i).root = ρ) :
    (piece mergeInstr sketches r T t ρ).sampleIdx = min r P.numSamples := by
  refine Sketch.foldl_rangeMerge_sampleIdx _ (List.ne_nil_of_mem (a := mergeInstr i) ?_) (Nat.zero_le _)
  rw [List.mem_filter]
  exact ⟨List.mem_map_of_mem (mem_loopRange.2 ((mem_partition_iff hT i.pos).2 hi)), decide_eq_true hρ⟩

/-- the threads that hold a part of the group -/
theorem Grouped.spread_iff (hg : Grouped mergeInstr) (hTn : T ≤ n) (hT : 0 < T) :
    lo mergeInstr ρ < hi mergeInstr ρ ∧ first mergeInstr T ρ ≤ t ∧ t ≤ owner mergeInstr T ρ ↔
      ∃ i : Fin n, getPartitionIdx n i T = t ∧ (mergeInstr i).root = ρ := by
  have hn0 : 0 < n := by omega
  have hle := hi_le mergeInstr ρ
  constructor
  · intro ⟨hne, hfirst, howner⟩
    by_cases hlo : (getIthPartition n t T).1 ≤ lo mergeInstr ρ
    · have ht := (start_le_iff hT hn0).1 hlo
      exact ⟨⟨lo mergeInstr ρ, by omega⟩, le_antisymm hfirst ht, (hg.mem_group _).2 ⟨le_rfl, hne⟩⟩
    · have hstart := (start_le_iff hT hn0).2 howner
      refine ⟨⟨(getIthPartition n t T).1, by omega⟩, (mem_partition_iff hT hn0).1 ⟨le_rfl, partition_nonempty hTn hT⟩,
        (hg.mem_group _).2 ?_⟩
      simp only
      omega
  · intro ⟨i, hi, hρ⟩
    have hgroup := (hg.mem_group i).1 hρ
    rw [← hi]
    exact ⟨by omega, getPartitionIdx_mono hgroup.1, getPartitionIdx_mono (by omega)⟩

/-- a group that is spread over threads holds the first instruction of its owner -/
theorem Grouped.owner_start (hg : Grouped mergeInstr) (hTn : T ≤ n) (hT : 0 < T) (hne : lo mergeInstr ρ < hi mergeInstr ρ)
    (hspan : first mergeInstr T ρ < owner mergeInstr T ρ) :
    ∃ i : Fin n, i.val = (getIthPartition n (owner mergeInstr T ρ) T).1 ∧ (mergeInstr i).root = ρ := by
  have hn0 : 0 < n := by omega
  have hle := hi_le mergeInstr ρ
  have hlow := (start_le_iff (i := lo mergeInstr ρ) hT hn0).not.2 hspan.not_ge
  have hhigh := (start_le_iff (i := hi mergeInstr ρ - 1) hT hn0).2 (le_refl (owner mergeInstr T ρ))
  refine ⟨⟨(getIthPartition n (owner mergeInstr T ρ) T).1, by omega⟩, rfl, (hg.mem_group _).2 ?_⟩
  simp only
  omega

variable (hg : Grouped mergeInstr) (hn : n < 2 ^ 32) (hTn : T ≤ n) (sketches) (r) (ρ : Fin n)
include hg hn hTn

theorem merges_threadActs (t : Fin T) : merges ρ (threadActs mergeInstr sketches r T t) =
    if (lo mergeInstr ρ < hi mergeInstr ρ ∧ first mergeInstr T ρ < owner mergeInstr T ρ) ∧
      first mergeInstr T ρ ≤ t ∧ t.val ≤ owner mergeInstr T ρ then 1 else 0 := by
  rw [merges, threadActs_view hg hn hTn t.isLt]
  split_ifs with h1 h2 h3 h4 h4 h4 h4 <;> first | rfl | omega

theorem samples_threadActs (t : Fin T) : samples ρ (threadActs mergeInstr sketches r T t) =
    if (lo mergeInstr ρ < hi mergeInstr ρ ∧ ¬ first mergeInstr T ρ < owner mergeInstr T ρ) ∧
      first mergeInstr T ρ ≤ t ∧ t.val ≤ owner mergeInstr T ρ then 1 else 0 := by
  rw [samples, threadActs_view hg hn hTn t.isLt]
  split_ifs with h1 h2 h3 h4 h4 h4 h4 <;> first | rfl | omega

omit hg hn hTn in
theorem sum_threads {a b : ℕ} (hab : a ≤ b) (hb : b < T) :
    ∑ t : Fin T, (if a ≤ t.val ∧ t.val ≤ b then 1 else 0) = b - a + 1 := by
  have hset : Finset.univ.filter (fun t : Fin T => a ≤ t.val ∧ t.val ≤ b) = Finset.Icc ⟨a, by omega⟩ ⟨b, hb⟩ := by
    ext t
    simp [Fin.le_def]
  rw [Finset.sum_boole, hset, Fin.card_Icc]
  simp only [Nat.cast_id]
  omega

omit hg hn hTn in
theorem first_le_owner (hne : lo mergeInstr ρ < hi mergeInstr ρ) : first mergeInstr T ρ ≤ owner mergeInstr T ρ :=
  getPartitionIdx_mono (by omega)

theorem width_threadActs (hT : 0 < T) : width (fun t : Fin T => threadActs mergeInstr sketches r T t) ρ =
    if lo mergeInstr ρ < hi mergeInstr ρ ∧ first mergeInstr T ρ < owner mergeInstr T ρ then
      owner mergeInstr T ρ - first mergeInstr T ρ + 1 else 0 := by
  simp only [width, merges_threadActs sketches r hg hn hTn ρ]
  by_cases h : lo mergeInstr ρ < hi mergeInstr ρ ∧ first mergeInstr T ρ < owner mergeInstr T ρ
  · simp only [h, true_and, and_self, if_true]
    exact sum_threads h.2.le (owner_lt hT h.1)
  · simp only [h, false_and, if_false, Finset.sum_const_zero]

/-- a root with a slot -/
theorem spread_of_width (hT : 0 < T) {ρ : Fin n} (hρ : 0 < width (fun t : Fin T => threadActs mergeInstr sketches r T t) ρ) :
    lo mergeInstr ρ < hi mergeInstr ρ ∧ first mergeInstr T ρ < owner mergeInstr T ρ := by
  by_contra h
  rw [width_threadActs sketches r hg hn hTn ρ hT, if_neg h] at hρ
  exact absurd hρ (lt_irrefl 0)

theorem content_threadActs (hr : r < P.numSamples) {b : Fin P.numBuckets} (hb : Sketch.InWindow P r b) (t : Fin T) :
    content sketches ρ (threadActs mergeInstr sketches r T t) b =
      ∑ i with getPartitionIdx n i.val T = t ∧ (mergeInstr i).root = ρ, (sketches (mergeInstr i).child).buckets b := by
  have hT : 0 < T := t.pos
  have hn0 : 0 < n := by omega
  rw [content, threadActs_view hg hn hTn t.isLt, ← piece_buckets hr hb hT hn0]
  by_cases hin : lo mergeInstr ρ < hi mergeInstr ρ ∧ first mergeInstr T ρ ≤ t ∧ t.val ≤ owner mergeInstr T ρ
  · rw [if_pos hin]
    split_ifs <;> simp [Act.sketch]
  · have hempty : Finset.univ.filter (fun i : Fin n => getPartitionIdx n i T = t ∧ (mergeInstr i).root = ρ) = ∅ :=
      Finset.filter_eq_empty_iff.2 fun i _ h => hin ((hg.spread_iff hTn hT).2 ⟨i, h⟩)
    rw [if_neg hin, piece_buckets hr hb hT hn0, hempty]
    rfl

/-- **The plan of a later round.** -/
theorem plan_threadActs (hT : 0 < T) : Plan r sketches (fun t : Fin T => threadActs mergeInstr sketches r T t)
    (fun ρ => lo mergeInstr ρ < hi mergeInstr ρ) (owner mergeInstr T) (supernode mergeInstr sketches) where
  shape t ρ := by
    rw [threadActs_view hg hn hTn t.isLt, width_threadActs sketches r hg hn hTn ρ hT]
    split_ifs with h1 h2 h3 h4 h4 <;> first | (exfalso; omega) | constructor
  once ρ hρ := by
    have howner := owner_lt hT hρ
    have hle := first_le_owner (T := T) ρ hρ
    simp only [samples_threadActs sketches r hg hn hTn ρ, width_threadActs sketches r hg hn hTn ρ hT, hρ, true_and]
    by_cases hspan : first mergeInstr T ρ < owner mergeInstr T ρ
    · simp [hspan]
    · simp only [hspan, not_false_eq_true, true_and, if_false]
      rw [sum_threads hle howner]
      omega
  absent ρ hρ t := by
    rw [threadActs_view hg hn hTn t.isLt, if_neg fun h => hρ h.1]
  announced ρ hρ := by
    have h := spread_of_width sketches r hg hn hTn hT hρ
    have howner := owner_lt hT h.1
    refine ⟨⟨first mergeInstr T ρ, by omega⟩, piece mergeInstr sketches r T (first mergeInstr T ρ) ρ, ?_⟩
    rw [width_threadActs sketches r hg hn hTn ρ hT, threadActs_view hg hn hTn (by simp only; omega),
      if_pos ⟨h.1, le_rfl, h.2.le⟩, if_pos h.2, if_pos h, if_neg (lt_irrefl _)]
    rfl
  bounded ρ := by
    rw [width_threadActs sketches r hg hn hTn ρ hT]
    split_ifs with h
    · have howner := owner_lt hT h.1
      omega
    · omega
  slots ρ ρ' hρ hρ' he := by
    have hspan := spread_of_width sketches r hg hn hTn hT hρ
    have hspan' := spread_of_width sketches r hg hn hTn hT hρ'
    obtain ⟨i, hi, hρi⟩ := hg.owner_start hTn hT hspan.1 hspan.2
    obtain ⟨j, hj, hρj⟩ := hg.owner_start hTn hT hspan'.1 hspan'.2
    rw [← hρi, ← hρj, show i = j from Fin.ext (by rw [hi, hj, he])]
  sum hr ρ hρ b hb := by
    have hn0 : 0 < n := by omega
    simp only [content_threadActs sketches r hg hn hTn ρ hr hb]
    have hfib := Finset.sum_fiberwise (Finset.univ.filter fun i => (mergeInstr i).root = ρ)
      (fun i => (⟨getPartitionIdx n i T, getPartitionIdx_lt i.isLt hT⟩ : Fin T))
      fun i => (sketches (mergeInstr i).child).buckets b
    rw [supernode, Finset.sum_apply, ← hfib]
    refine Finset.sum_congr rfl fun t _ => ?_
    rw [Finset.filter_filter]
    refine Finset.sum_congr (Finset.filter_congr fun i _ => ?_) fun _ _ => rfl
    exact and_comm.trans (and_congr_right fun _ => ⟨fun h => Fin.ext h, fun h => congrArg Fin.val h⟩)
  idx t a ha skt hskt := by
    have hroot : ∃ ρ, a.root = some ρ := by
      cases a with
      | sampleVertex v => exact ⟨v, rfl⟩
      | sampleLocal root s => exact ⟨root, rfl⟩
      | setNeeded g root k => exact ⟨root, rfl⟩
      | mergeGlobal g root s => exact ⟨root, rfl⟩
      | undefined => cases hskt
    obtain ⟨ρ, hρ⟩ := hroot
    have hmem : a ∈ view ρ (threadActs mergeInstr sketches r T t) := List.mem_filter.2 ⟨ha, decide_eq_true hρ⟩
    rw [threadActs_view hg hn hTn t.isLt] at hmem
    by_cases hin : lo mergeInstr ρ < hi mergeInstr ρ ∧ first mergeInstr T ρ ≤ t ∧ t.val ≤ owner mergeInstr T ρ
    · obtain ⟨i, hi, hρi⟩ := (hg.spread_iff hTn hT).1 hin
      rw [← piece_sampleIdx sketches hT hi hρi]
      rw [if_pos hin] at hmem
      split_ifs at hmem <;> simp only [List.nil_append, List.cons_append, List.mem_cons, List.not_mem_nil, or_false] at hmem
      · cases hmem
        cases hskt
        rfl
      · rcases hmem with rfl | rfl
        · cases hskt
        · cases hskt
          rfl
      · cases hmem
        cases hskt
        rfl
    · rw [if_neg hin] at hmem
      cases hmem
  safe t := segmentActs_safe ((partition_nonempty hTn hT).trans_le (partition_le t.isLt))

end laterRounds

/-! ## Round 0 -/

theorem view_roundZero (owner : Fin n → Fin T) (t : Fin T) (ρ : Fin n) :
    view ρ (roundZeroActs owner t : List (Act P n)) = if owner ρ = t then [.sampleVertex ρ] else [] := by
  have hfilter : ((List.finRange n).filter fun v => owner v = t).filter (fun v => v = ρ) = if owner ρ = t then [ρ] else [] := by
    rw [List.filter_filter, List.filter_congr fun v _ => Bool.and_comm .., ← List.filter_filter, List.filter_eq,
      List.count_eq_one_of_mem (List.nodup_finRange n) (List.mem_finRange ρ), List.replicate_one, List.filter_singleton]
    simp
  have hroot : (fun a : Act P n => decide (a.root = some ρ)) ∘ Act.sampleVertex = fun v => decide (v = ρ) := by
    funext v
    simp [Act.root]
  rw [view, roundZeroActs, List.filter_map, hroot, hfilter]
  split_ifs <;> rfl

/-- **The plan of round 0**: every vertex is a supernode -/
theorem plan_roundZero {sketches : Fin n → Sketch P} (hidx : ∀ v, (sketches v).sampleIdx = 0) (owner : Fin n → Fin T) :
    Plan 0 sketches (fun t => roundZeroActs owner t) (fun _ => True) (fun _ => 0) (fun v => (sketches v).buckets) := by
  have hmerges : ∀ ρ (t : Fin T), merges ρ (roundZeroActs owner t : List (Act P n)) = 0 := by
    intro ρ t
    rw [merges, view_roundZero]
    split_ifs <;> rfl
  have hwidth : ∀ ρ, width (fun t => (roundZeroActs owner t : List (Act P n))) ρ = 0 := fun ρ =>
    Finset.sum_eq_zero fun t _ => hmerges ρ t
  refine ⟨fun t ρ => ?_, fun ρ _ => ?_, fun ρ h => absurd trivial h, fun ρ h => ?_, fun ρ => ?_, fun ρ _ h => ?_,
    fun hr ρ _ b hb => ?_, fun t a ha skt hskt => ?_, fun t h => ?_⟩
  · rw [view_roundZero]
    split_ifs
    · exact .vertex
    · exact .nothing
  · have hsamples : ∀ t : Fin T, samples ρ (roundZeroActs owner t : List (Act P n)) = if owner ρ = t then 1 else 0 := by
      intro t
      rw [samples, view_roundZero]
      split_ifs <;> rfl
    simp only [hsamples, Finset.sum_ite_eq, Finset.mem_univ, if_true, hwidth]
    rfl
  · rw [hwidth] at h
    exact absurd h (lt_irrefl 0)
  · rw [hwidth]
    norm_num
  · rw [hwidth] at h
    exact absurd h (lt_irrefl 0)
  · have hcontent : ∀ t : Fin T, content sketches ρ (roundZeroActs owner t) b =
        if owner ρ = t then (sketches ρ).buckets b else 0 := by
      intro t
      rw [content, view_roundZero]
      split_ifs
      · simp [Act.sketch]
      · rfl
    simp only [hcontent, Finset.sum_ite_eq, Finset.mem_univ, if_true]
  · obtain ⟨v, -, rfl⟩ := List.mem_map.1 ha
    cases hskt
    rw [hidx, Nat.zero_min]
  · obtain ⟨v, -, hv⟩ := List.mem_map.1 h
    cases hv

end GraphStreamingCC.Boruvka
