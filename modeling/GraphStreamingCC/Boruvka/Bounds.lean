/-
The array accesses of a Boruvka round and of the grouping after it (src/cc_sketch_alg.cpp: `perform_boruvka_round`,
`find_last_partition_of_root`, `create_merge_instructions`), for teams of any size.

`roundReads` lists the indices at which a thread of a round reads `merge_instr`, `Act.globalId` the elements of
`global_merges` it uses; `create_merge_instructions` shows an index out of bounds as its phase `undefined`. All of them
are within bounds exactly if the team has at most as many threads as there are vertices (`inBounds_iff`): with more, the
segment of the last thread is empty and begins behind the array, where the thread still looks for its first root.
-/
import GraphStreamingCC.Boruvka.Grouping

namespace GraphStreamingCC.Boruvka

open Runs

variable {P : Params} {n T : ℕ} {mergeInstr : Fin n → MergeInstr n}

/-! ## The accesses -/

/-- `merge_instr[mid]` in the loop of the binary search -/
def searchReads (mergeInstr : Fin n → MergeInstr n) (root : Fin n) : (fuel min max : ℕ) → List ℕ
  | 0, _, _ => []
  | fuel + 1, min, max =>
    if min < max then
      let mid := min + (max - min) / 2
      mid :: if (instrAt mergeInstr mid).any fun m => m.before root (2 ^ 32 - 1) then searchReads mergeInstr root fuel (mid + 1) max
        else searchReads mergeInstr root fuel min mid
    else []

/-- the reads of `find_last_partition_of_root`; the last two are in its assertions -/
def findLastReads (mergeInstr : Fin n → MergeInstr n) (root : Fin n) (minHint : ℕ) : List ℕ :=
  let min := searchLoop mergeInstr root n minHint (n - 1)
  let last := if (instrAt mergeInstr min).map MergeInstr.root ≠ some root then (min + 2 ^ 32 - 1) % 2 ^ 32 else min
  searchReads mergeInstr root n minHint (n - 1) ++ [min, last] ++ if last = n - 1 then [] else [last + 1]

/-- the reads of thread `thrId` in `perform_boruvka_round` -/
def roundReads (mergeInstr : Fin n → MergeInstr n) (sketches : Fin n → Sketch P) (curRound numThreads thrId : ℕ) : List ℕ :=
  let start := (getIthPartition n thrId numThreads).1
  let stop := (getIthPartition n thrId numThreads).2
  (if 0 < start then [start - 1, start] else []) ++ (if stop < n then [stop - 1, stop] else []) ++ [start] ++
    List.range' start (stop - start) ++
    match instrAt mergeInstr start with
    | none => []
    | some m =>
      let rootFromLeft := decide (0 < start) && (instrAt mergeInstr (start - 1)).map MergeInstr.root == some m.root
      let rootExitsRight := decide (stop < n) &&
        (instrAt mergeInstr (stop - 1)).map MergeInstr.root == (instrAt mergeInstr stop).map MergeInstr.root
      let sc := ((loopRange n start stop).map mergeInstr).foldl (Scan.visit sketches curRound thrId)
        ⟨[], m.root, rootFromLeft, .empty P⟩
      if rootExitsRight || sc.rootFromLeft then findLastReads mergeInstr sc.curRoot start else []

/-- every access of a team of T threads is within its array; `maxThreads` is the length of `global_merges` -/
structure InBounds (P : Params) (n T maxThreads : ℕ) : Prop where
  create : ∀ (m0 : Fin n → MergeInstr n) (parent : Fin n → Fin n) (ls : List (Create.Label n T)) (s : Create.St n T),
    Function.Bijective (fun i => (m0 i).child) → exec Create.step (Create.start m0 parent) ls = some s →
    s.phase ≠ .undefined
  reads : ∀ (mergeInstr : Fin n → MergeInstr n) (sketches : Fin n → Sketch P) (r : ℕ), Grouped mergeInstr → 0 < r →
    ∀ t < T, ∀ i ∈ roundReads mergeInstr sketches r T t, i < n
  slots : ∀ (mergeInstr : Fin n → MergeInstr n) (sketches : Fin n → Sketch P) (r : ℕ), Grouped mergeInstr → 0 < r →
    ∀ t < T, ∀ a ∈ threadActs mergeInstr sketches r T t, ∀ id ∈ a.globalId, id < maxThreads

/-! ## Teams of at most n threads -/

theorem mem_searchReads {root : Fin n} {fuel a b i : ℕ} (h : i ∈ searchReads mergeInstr root fuel a b) : a ≤ i ∧ i < b := by
  induction fuel generalizing a b with
  | zero => cases h
  | succ fuel ih =>
    rw [searchReads] at h
    split_ifs at h with hab
    · rw [List.mem_cons] at h
      rcases h with rfl | h
      · omega
      · split_ifs at h
        · have := ih h
          omega
        · have := ih h
          omega
    · cases h

/-- the search from within a group ends at its last instruction -/
theorem findLastReads_lt (hg : Grouped mergeInstr) (hn : n < 2 ^ 32) {ρ : Fin n} {minHint : ℕ}
    (hmin : minHint < hi mergeInstr ρ) (hne : lo mergeInstr ρ < hi mergeInstr ρ) :
    ∀ i ∈ findLastReads mergeInstr ρ minHint, i < n := by
  have hle := hi_le mergeInstr ρ
  have hsearch : searchLoop mergeInstr ρ n minHint (n - 1) = min (hi mergeInstr ρ) (n - 1) :=
    searchLoop_eq hg hn (by omega) (by omega) (by omega) hmin.le
  have hlast : (if (instrAt mergeInstr (min (hi mergeInstr ρ) (n - 1))).map MergeInstr.root ≠ some ρ then
      (min (hi mergeInstr ρ) (n - 1) + 2 ^ 32 - 1) % 2 ^ 32 else min (hi mergeInstr ρ) (n - 1)) = hi mergeInstr ρ - 1 := by
    split_ifs with h
    · rw [ne_eq, hg.instrAt_root] at h
      omega
    · rw [not_not, hg.instrAt_root] at h
      omega
  intro i hi
  rw [findLastReads, hsearch] at hi
  simp only [hlast, List.mem_append, List.mem_cons, List.not_mem_nil, or_false] at hi
  rcases hi with (hi | rfl | rfl) | hi
  · have := mem_searchReads hi
    omega
  · omega
  · omega
  · split_ifs at hi with hend
    · cases hi
    · rw [List.mem_singleton] at hi
      omega

theorem roundReads_lt (hg : Grouped mergeInstr) (hn : n < 2 ^ 32) (hTn : T ≤ n) {t : ℕ} (ht : t < T)
    (sketches : Fin n → Sketch P) (r : ℕ) : ∀ i ∈ roundReads mergeInstr sketches r T t, i < n := by
  have hab := partition_nonempty (t := t) hTn (by omega)
  have hbn := partition_le (n := n) ht
  obtain ⟨L, acts, hL1, hL2, -, hfold, -⟩ := segment_fold hg hab hbn t sketches r
  intro i hi
  rw [roundReads, instrAt_of_lt (show (getIthPartition n t T).1 < n by omega)] at hi
  simp only [hfold, List.mem_append, List.mem_singleton, List.mem_range'_1] at hi
  rcases hi with (((hi | hi) | rfl) | hi) | hi
  · split_ifs at hi
    · rcases List.mem_pair.1 hi with rfl | rfl <;> omega
    · cases hi
  · split_ifs at hi
    · rcases List.mem_pair.1 hi with rfl | rfl <;> omega
    · cases hi
  · omega
  · omega
  · split_ifs at hi
    · exact findLastReads_lt hg hn (by omega) (by omega) i hi
    · cases hi

theorem globalId_lt (hg : Grouped mergeInstr) (hn : n < 2 ^ 32) (hTn : T ≤ n) {t : ℕ} (ht : t < T)
    (sketches : Fin n → Sketch P) (r : ℕ) {a : Act P n} (ha : a ∈ threadActs mergeInstr sketches r T t) {id : ℕ}
    (hid : id ∈ a.globalId) : id < T := by
  -- the act is in the view of its root, which names only the owner of the root
  have hview : ∀ ρ, a.root = some ρ → id < T := by
    intro ρ hρ
    have hle := hi_le mergeInstr ρ
    have howner : owner mergeInstr T ρ < T := getPartitionIdx_lt (by omega) (by omega)
    have hmem : a ∈ view ρ (threadActs mergeInstr sketches r T t) := List.mem_filter.2 ⟨ha, decide_eq_true hρ⟩
    rw [threadActs_view hg hn hTn ht] at hmem
    split_ifs at hmem <;> simp only [List.nil_append, List.cons_append, List.mem_cons, List.not_mem_nil, or_false] at hmem
    · subst hmem
      cases hid
      exact howner
    · rcases hmem with rfl | rfl <;> cases hid <;> exact howner
    · subst hmem
      cases hid
  cases a with
  | setNeeded g root k => exact hview root rfl
  | mergeGlobal g root skt => exact hview root rfl
  | sampleVertex | sampleLocal | undefined => cases hid

/-! ## Larger teams -/

/-- the segment of the last thread begins behind the array -/
theorem last_start (hn : 0 < n) (hnT : n < T) : n ≤ (getIthPartition n (T - 1) T).1 := by
  by_contra hlt
  have h : (getIthPartition n (T - 1) T).1 ≤ n - 1 := by omega
  rw [getIthPartition, ceilDiv_le_iff_le_mul (by omega)] at h
  obtain ⟨m, rfl⟩ : ∃ m, n = m + 1 := ⟨n - 1, by omega⟩
  obtain ⟨k, rfl⟩ : ∃ k, T = m + 1 + k + 1 := ⟨T - (m + 1) - 1, by omega⟩
  simp only [Nat.add_sub_cancel] at h
  nlinarith

theorem start_mem_roundReads (mergeInstr : Fin n → MergeInstr n) (sketches : Fin n → Sketch P) (r T t : ℕ) :
    (getIthPartition n t T).1 ∈ roundReads mergeInstr sketches r T t := by
  rw [roundReads]
  simp only [List.mem_append, List.mem_singleton, or_true, true_or]

/-- `merge_instr[start]` of the last thread is behind the array -/
theorem not_inBounds {maxThreads : ℕ} (hn : 0 < n) (hnT : n < T) : ¬ InBounds P n T maxThreads := by
  intro h
  have hgrouped : Grouped (Create.ownInstr n) := ⟨Create.ownInstr_bijective n, fun _ _ hij => hij⟩
  have hread := h.reads (Create.ownInstr n) (fun _ => .empty P) 1 hgrouped one_pos (T - 1) (by omega) _
    (start_mem_roundReads _ _ 1 T (T - 1))
  exact absurd hread (not_lt.2 (last_start hn hnT))

/-- **When all accesses are within bounds.** For a team of T threads, with any permutation as `merge_instr`, any array
`parent` and any interleaving, `create_merge_instructions` stays within `merge_instr` and `cc_prefix`, and a round on any
grouped `merge_instr` stays within `merge_instr` and `global_merges`, if and only if there is a vertex for each thread. -/
theorem inBounds_iff (P : Params) {maxThreads : ℕ} (hn : 0 < n) (hn32 : n < 2 ^ 32) (hT : 0 < T) (hmax : T ≤ maxThreads) :
    InBounds P n T maxThreads ↔ T ≤ n := by
  constructor
  · intro h
    by_contra hTn
    exact not_inBounds hn (not_le.1 hTn) h
  · intro hTn
    refine ⟨fun m0 parent ls s hm hs => ?_, fun m sketches r hg _ t ht => roundReads_lt hg hn32 hTn ht sketches r,
      fun m sketches r hg _ t ht a ha id hid => (globalId_lt hg hn32 hTn ht sketches r ha hid).trans_le hmax⟩
    intro hphase
    have hinv := Create.run_inv hn32 hT hTn hm hs
    rw [Create.Inv, hphase] at hinv
    exact hinv

theorem inBounds_two : InBounds ⟨fun x _ => x, 0, 1, 1, 1, false⟩ 2 2 2 :=
  (inBounds_iff _ (by norm_num) (by norm_num) (by norm_num) le_rfl).2 le_rfl

/-- k steps of thread t of three -/
def stepsOf (t : Fin 3) (k : ℕ) : List (Create.Label 2 3) := List.replicate k (.thread t .left)

/-- two vertices that have not been merged, and three threads -/
def threeRun : List (Create.Label 2 3) :=
  List.flatten [stepsOf (Threads.nth 0) 5, stepsOf (Threads.nth 1) 5,
    [.iterate (Threads.nth 0) [(Threads.fst, [Threads.fst])], .iterate (Threads.nth 1) [(Threads.snd, [Threads.snd])],
      .iterate (Threads.nth 2) []],
    stepsOf (Threads.nth 0) 1, stepsOf (Threads.nth 1) 1, [.barrier, .barrier, .barrier], stepsOf (Threads.nth 1) 1,
    [.barrier], stepsOf (Threads.nth 0) 1, stepsOf (Threads.nth 1) 1]

/-- **A read behind the array.** Two vertices stay alone in round 0, three threads group them, and in round 1 the third
thread reads `merge_instr[2]`. -/
theorem read_past_end : (∃ s ∈ exec Create.step (Create.start (Create.ownInstr 2) id) threeRun,
      Create.Done s ∧ s.mergeInstr = Create.ownInstr 2) ∧
    (∀ (P : Params) (sketches : Fin 2 → Sketch P), 2 ∈ roundReads (Create.ownInstr 2) sketches 1 3 2) ∧
    ∀ P : Params, ¬ InBounds P 2 3 3 :=
  ⟨by decide +kernel, fun _ sketches => start_mem_roundReads (Create.ownInstr 2) sketches 1 3 2,
    fun _ => not_inBounds (by norm_num) (by norm_num)⟩

end GraphStreamingCC.Boruvka
