/-
The stream threads of `GraphSketchDriver` and the calls of `get_update_buffer` (include/graph_sketch_driver.h:
constructor, `process_stream_until`).

For a stream whose `get_update_buffer` is not thread safe the constructor means to use one thread only, but the
assignment in its body names the parameter, which hides the member of the same name: `process_stream_until` starts as
many threads as were requested. `exactly_once_iff`: over all interleavings every update is handed on exactly once if and
only if the stream is thread safe, one thread was requested, or there is no update at all.

The updates before the breakpoint are numbered, and the arrays hold their numbers, so that two equal updates differ. A
call of a thread safe stream is one step; otherwise the position is read, the updates are copied, and the position is
stored.
-/
import GraphStreamingCC.Core.Runs
import GraphStreamingCC.Core.Threads

namespace GraphStreamingCC.Readers

open Runs

/-! ## The constructor -/

/-- the two variables of the name `num_stream_threads` -/
structure Ctor where
  /-- the member, from which `process_stream_until` takes the number of its threads -/
  member : ℕ
  /-- the parameter, which hides it in the body -/
  param : ℕ

def construct (threadSafe : Bool) (numStreamThreads : ℕ) : Ctor :=
  let c : Ctor := ⟨numStreamThreads, numStreamThreads⟩
  -- "Setting number of stream threads to 1"
  if c.param > 1 ∧ threadSafe = false then { c with param := 1 } else c

theorem construct_member (threadSafe : Bool) (numStreamThreads : ℕ) :
    (construct threadSafe numStreamThreads).member = numStreamThreads := by
  simp only [construct]
  split_ifs <;> rfl

/-! ## The stream threads -/

variable {V : Type*} {m T : ℕ}

def updateArraySize : ℕ := 4000

/-- what a stream thread does; i is the number of an update -/
inductive Pc (m : ℕ) where
  /-- about to call `get_update_buffer` -/
  | call
  /-- in the call: the position p is read -/
  | copy (p : ℕ)
  /-- in the call: about to store the new position q -/
  | advance (q : ℕ)
  /-- about to look at the next element of its array -/
  | next
  | preInsert (i : Fin m)
  /-- about to insert {src, dst} into the guttering system -/
  | insertSrc (i : Fin m)
  /-- about to insert {dst, src} -/
  | insertDst (i : Fin m)
  | returned
deriving DecidableEq, Repr

structure Reader (m : ℕ) where
  /-- what is left of the array; `none` is a BREAKPOINT -/
  updateArray : List (Option (Fin m))
  pc : Pc m
deriving DecidableEq, Repr

structure St (V : Type*) (m T : ℕ) where
  /-- the position of the stream -/
  pos : ℕ
  readers : Fin T → Reader m
  /-- the updates passed to `pre_insert`, the latest first -/
  preInserted : List (Fin m)
  /-- what was inserted into the guttering system, with the update it came from -/
  inserted : List (Fin m × V × V)

def start (V : Type*) (m T : ℕ) : St V m T := ⟨0, fun _ => ⟨[], .call⟩, [], []⟩

/-- the updates behind position p -/
def behind (m p : ℕ) : List (Fin m) := (List.finRange m).drop p

/-- what a call at position p with k updates fills in: behind the last update comes a BREAKPOINT, if there is room -/
def buffer (m p k : ℕ) : List (Option (Fin m)) :=
  ((behind m p).take k).map some ++ if p + k = m ∧ k < updateArraySize then [none] else []

/-- a call hands out the next k updates, none only if there are none left -/
def HandsOut (m p k : ℕ) : Prop := p + k ≤ m ∧ k ≤ updateArraySize ∧ (k = 0 → p = m)

instance (m p k : ℕ) : Decidable (HandsOut m p k) := by
  unfold HandsOut
  infer_instance

namespace St

/-- thread t goes on -/
def goto (s : St V m T) (t : Fin T) (updateArray : List (Option (Fin m))) (pc : Pc m) : St V m T :=
  { s with readers := Function.update s.readers t ⟨updateArray, pc⟩ }

end St

/-- the next step of thread t; k is the number of updates that a call hands out -/
def step (threadSafe : Bool) (upd : Fin m → V × V) (s : St V m T) (l : Fin T × ℕ) : Option (St V m T) :=
  let array := (s.readers l.1).updateArray
  match (s.readers l.1).pc with
  | .call =>
    if threadSafe then
      if HandsOut m s.pos l.2 then some { s.goto l.1 (buffer m s.pos l.2) .next with pos := s.pos + l.2 } else none
    else some (s.goto l.1 array (.copy s.pos))
  | .copy p => if HandsOut m p l.2 then some (s.goto l.1 (buffer m p l.2) (.advance (p + l.2))) else none
  | .advance q => some { s.goto l.1 array .next with pos := q }
  | .next =>
    match array with
    | [] => some (s.goto l.1 [] .call)
    | none :: rest => some (s.goto l.1 rest .returned)
    | some i :: rest => some (s.goto l.1 rest (.preInsert i))
  | .preInsert i => some { s.goto l.1 array (.insertSrc i) with preInserted := i :: s.preInserted }
  | .insertSrc i => some { s.goto l.1 array (.insertDst i) with inserted := (i, (upd i).1, (upd i).2) :: s.inserted }
  | .insertDst i => some { s.goto l.1 array .next with inserted := (i, (upd i).2, (upd i).1) :: s.inserted }
  | .returned => none

/-- the two directed copies of update i -/
def both (upd : Fin m → V × V) (i : Fin m) : Multiset (Fin m × V × V) :=
  {(i, (upd i).1, (upd i).2)} + {(i, (upd i).2, (upd i).1)}

/-- no update has been handed on twice, in either way; and when all threads have returned, every update has been passed to
`pre_insert` and inserted once in each direction -/
structure ExactlyOnce (upd : Fin m → V × V) (s : St V m T) : Prop where
  preInserted : s.preInserted.Nodup
  inserted : (s.inserted : Multiset (Fin m × V × V)) ≤ ∑ i, both upd i
  joined : (∀ t, (s.readers t).pc = .returned) →
    (s.preInserted : Multiset (Fin m)) = Finset.univ.val ∧ (s.inserted : Multiset (Fin m × V × V)) = ∑ i, both upd i

/-! ## What is kept -/

/-- the updates a thread has got and not yet passed to `pre_insert` -/
def Reader.holds (r : Reader m) : Multiset (Fin m) :=
  (match r.pc with | .preInsert i => {i} | _ => 0) + (r.updateArray.filterMap id : Multiset (Fin m))

/-- the copies it has still to insert -/
def Pc.owed (upd : Fin m → V × V) : Pc m → Multiset (Fin m × V × V)
  | .insertSrc i => both upd i
  | .insertDst i => {(i, (upd i).2, (upd i).1)}
  | _ => 0

/-- where the updates begin that no thread has got, seen from a thread of an unsafe stream -/
def Pc.locates (pos front : ℕ) : Pc m → Prop
  | .copy p => pos = p ∧ front = p
  | .advance q => front = q
  | _ => pos = front

def Pc.inCall : Pc m → Bool
  | .copy _ | .advance _ => true
  | _ => false

/-- the array is still to be filled -/
def Pc.unfilled : Pc m → Bool
  | .call | .copy _ => true
  | _ => false

/-- what holds of each thread by itself -/
structure Reader.Ok (threadSafe : Bool) (pos front : ℕ) (r : Reader m) : Prop where
  located : r.pc.locates pos front
  safe : threadSafe = true → r.pc.inCall = false
  /-- the BREAKPOINT comes last, and behind the last update -/
  breakpoint : ∃ is : List (Fin m), r.updateArray = is.map some ∨ r.updateArray = is.map some ++ [none] ∧ front = m
  returned : r.pc = .returned → r.updateArray = [] ∧ front = m
  empty : r.pc.unfilled = true → r.updateArray = []

structure Inv (threadSafe : Bool) (upd : Fin m → V × V) (s : St V m T) (front : ℕ) : Prop where
  split : (s.preInserted : Multiset (Fin m)) + ∑ t, (s.readers t).holds + (behind m front : Multiset (Fin m)) =
    Finset.univ.val
  copies : (s.inserted : Multiset (Fin m × V × V)) + ∑ t, (s.readers t).pc.owed upd =
    ((s.preInserted : Multiset (Fin m)).map (both upd)).sum
  ok : ∀ t, (s.readers t).Ok threadSafe s.pos front

theorem inv_start (threadSafe : Bool) (upd : Fin m → V × V) : Inv threadSafe upd (start V m T) 0 where
  split := by
    simp only [start, Reader.holds, behind, List.filterMap_nil, Multiset.coe_nil, add_zero, Finset.sum_const_zero]
    exact zero_add _
  copies := by simp [start, Pc.owed]
  ok t := ⟨rfl, fun _ => rfl, ⟨[], .inl rfl⟩, fun h => (by cases h), fun _ => rfl⟩

section step

variable {threadSafe : Bool} {upd : Fin m → V × V} {s s' : St V m T} {front : ℕ}

/-- another thread of a thread safe stream hands out updates -/
theorem Reader.Ok.other {r : Reader m} {pos pos' front' : ℕ} (h : r.Ok true pos front) (hpos : pos' = front')
    (hfront : front = m → front' = m) : r.Ok true pos' front' := by
  obtain ⟨is, his⟩ := h.breakpoint
  refine ⟨?_, h.safe, ⟨is, his.imp_right fun h => ⟨h.1, hfront h.2⟩⟩, fun hr => (h.returned hr).imp_right hfront, h.empty⟩
  have hsafe := h.safe rfl
  cases hpc : r.pc <;> simp_all [Pc.inCall, Pc.locates]

/-- a thread outside of a call goes on with what is left of its array -/
theorem Reader.Ok.goto {r : Reader m} {pos pos' : ℕ} {pc : Pc m} (h : r.Ok threadSafe pos front) (hpos : pos' = front)
    (hcall : pc.inCall = false) (hfilled : pc.unfilled = false) (hret : pc ≠ .returned) :
    Reader.Ok threadSafe pos' front ⟨r.updateArray, pc⟩ := by
  refine ⟨?_, fun _ => hcall, h.breakpoint, fun hr => absurd hr hret, fun hf => absurd (hfilled.symm.trans hf) (by decide)⟩
  cases pc with
  | copy | advance => cases hcall
  | call | next | preInsert | insertSrc | insertDst | returned => exact hpos

/-- nothing stands behind the BREAKPOINT -/
theorem Reader.Ok.of_breakpoint {r : Reader m} {pos : ℕ} {rest : List (Option (Fin m))} (h : r.Ok threadSafe pos front)
    (harr : r.updateArray = none :: rest) : rest = [] ∧ front = m := by
  obtain ⟨is, his⟩ := h.breakpoint
  rw [harr] at his
  cases is with
  | nil => simpa using his
  | cons i is => simp at his

theorem Reader.Ok.of_update {r : Reader m} {pos : ℕ} {i : Fin m} {rest : List (Option (Fin m))} (h : r.Ok threadSafe pos front)
    (harr : r.updateArray = some i :: rest) :
    ∃ is : List (Fin m), rest = is.map some ∨ rest = is.map some ++ [none] ∧ front = m := by
  obtain ⟨is, his⟩ := h.breakpoint
  rw [harr] at his
  cases is with
  | nil => simp at his
  | cons j is => exact ⟨is, his.imp (fun h => (List.cons.inj h).2) fun h => ⟨(List.cons.inj h.1).2, h.2⟩⟩

/-- thread t moves -/
theorem Inv.move (h : Inv threadSafe upd s front) (hone : threadSafe = true ∨ T ≤ 1) {t : Fin T} {x : Reader m}
    {pos' front' : ℕ} {pre' : List (Fin m)} {ins' : List (Fin m × V × V)}
    (hsplit : (pre' : Multiset (Fin m)) + x.holds + (behind m front' : Multiset (Fin m)) =
      s.preInserted + (s.readers t).holds + (behind m front : Multiset (Fin m)))
    (hcopies : (ins' : Multiset (Fin m × V × V)) + x.pc.owed upd +
        ((s.preInserted : Multiset (Fin m)).map (both upd)).sum =
      s.inserted + (s.readers t).pc.owed upd + ((pre' : Multiset (Fin m)).map (both upd)).sum)
    (hx : x.Ok threadSafe pos' front') (hother : threadSafe = true → pos' = front' ∧ (front = m → front' = m)) :
    Inv threadSafe upd ⟨pos', Function.update s.readers t x, pre', ins'⟩ front' := by
  refine ⟨?_, ?_, fun t' => ?_⟩
  · have hsum := Threads.sum_update Reader.holds s.readers t x
    refine add_right_cancel (b := (s.readers t).holds) ?_
    calc (pre' : Multiset (Fin m)) + ∑ t', (Function.update s.readers t x t').holds + behind m front' + (s.readers t).holds
        = pre' + (∑ t', (Function.update s.readers t x t').holds + (s.readers t).holds) + behind m front' := by abel
      _ = (pre' + x.holds + behind m front') + ∑ t', (s.readers t').holds := by rw [hsum]; abel
      _ = (s.preInserted + ∑ t', (s.readers t').holds + behind m front) + (s.readers t).holds := by rw [hsplit]; abel
      _ = Finset.univ.val + (s.readers t).holds := by rw [h.split]
  · have hsum := Threads.sum_update (fun r : Reader m => r.pc.owed upd) s.readers t x
    refine add_right_cancel (b := (s.readers t).pc.owed upd + ((s.preInserted : Multiset (Fin m)).map (both upd)).sum) ?_
    calc (ins' : Multiset (Fin m × V × V)) + ∑ t', (Function.update s.readers t x t').pc.owed upd +
          ((s.readers t).pc.owed upd + ((s.preInserted : Multiset (Fin m)).map (both upd)).sum)
        = ins' + (∑ t', (Function.update s.readers t x t').pc.owed upd + (s.readers t).pc.owed upd) +
          ((s.preInserted : Multiset (Fin m)).map (both upd)).sum := by abel
      _ = (ins' + x.pc.owed upd + ((s.preInserted : Multiset (Fin m)).map (both upd)).sum) +
          ∑ t', (s.readers t').pc.owed upd := by rw [hsum]; abel
      _ = (s.inserted + ∑ t', (s.readers t').pc.owed upd) + (s.readers t).pc.owed upd +
          ((pre' : Multiset (Fin m)).map (both upd)).sum := by rw [hcopies]; abel
      _ = ((pre' : Multiset (Fin m)).map (both upd)).sum + ((s.readers t).pc.owed upd +
          ((s.preInserted : Multiset (Fin m)).map (both upd)).sum) := by rw [h.copies]; abel
  · by_cases ht : t' = t
    · subst ht
      simpa only [Function.update_self] using hx
    · simp only [Function.update_of_ne ht]
      rcases hone with hsafe | hT
      · subst hsafe
        exact (h.ok t').other (hother rfl).1 (hother rfl).2
      · -- there is no other thread
        exact absurd (Fin.ext (by omega)) ht

theorem behind_split (p k : ℕ) :
    (behind m p : Multiset (Fin m)) = ((behind m p).take k : Multiset (Fin m)) + (behind m (p + k) : Multiset (Fin m)) := by
  rw [Multiset.coe_add, behind, behind, ← List.drop_drop, List.take_append_drop]

theorem filterMap_buffer (p k : ℕ) : (buffer m p k).filterMap id = (behind m p).take k := by
  rw [buffer, List.filterMap_append, List.filterMap_map]
  split_ifs <;> simp

theorem buffer_breakpoint (p k : ℕ) :
    ∃ is : List (Fin m), buffer m p k = is.map some ∨ buffer m p k = is.map some ++ [none] ∧ p + k = m := by
  refine ⟨(behind m p).take k, ?_⟩
  unfold buffer
  split_ifs with h
  · exact .inr ⟨rfl, h.1⟩
  · exact .inl (List.append_nil _)

theorem step_inv (hone : threadSafe = true ∨ T ≤ 1) (h : Inv threadSafe upd s front) {l : Fin T × ℕ}
    (hs : step threadSafe upd s l = some s') : ∃ front', Inv threadSafe upd s' front' := by
  obtain ⟨t, k⟩ := l
  have hok := h.ok t
  cases hpc : (s.readers t).pc with
  | call =>
    have hloc := hok.located
    rw [hpc] at hloc
    have hempty := hok.empty (by rw [hpc]; rfl)
    simp only [step, hpc] at hs
    split_ifs at hs with hsafe hout
    · cases hs
      subst hsafe
      rw [← show s.pos = front from hloc] at h
      refine ⟨s.pos + k, h.move hone ?_ (by simp only [hpc]; rfl) ⟨rfl, fun _ => rfl, buffer_breakpoint _ _, fun hr => (by
        cases hr), fun hr => (by cases hr)⟩ fun _ => ⟨rfl, fun hm => ?_⟩⟩
      · simp only [Reader.holds, hpc, hempty, filterMap_buffer, List.filterMap_nil, Multiset.coe_nil, zero_add, add_zero]
        rw [behind_split s.pos k, ← add_assoc]
        rfl
      · have := hout.1
        omega
    · cases hs
      refine ⟨front, h.move hone ?_ (by simp only [hpc]; rfl) ⟨⟨rfl, Eq.symm hloc⟩, fun hf => absurd hf hsafe,
        hok.breakpoint, fun hr => (by cases hr), fun _ => hempty⟩ fun hf => absurd hf hsafe⟩
      simp only [Reader.holds, hpc]
  | copy p =>
    have hloc := hok.located
    rw [hpc] at hloc
    obtain ⟨hpos, rfl⟩ : s.pos = p ∧ front = p := hloc
    have hempty := hok.empty (by rw [hpc]; rfl)
    have hunsafe : threadSafe ≠ true := fun hf => absurd (hok.safe hf) (by rw [hpc]; simp [Pc.inCall])
    simp only [step, hpc] at hs
    split_ifs at hs
    cases hs
    refine ⟨front + k, h.move hone ?_ (by simp only [hpc]; rfl) ⟨rfl, fun hf => absurd hf hunsafe, buffer_breakpoint _ _,
      fun hr => (by cases hr), fun hr => (by cases hr)⟩ fun hf => absurd hf hunsafe⟩
    simp only [Reader.holds, hpc, hempty, filterMap_buffer, List.filterMap_nil, Multiset.coe_nil, zero_add, add_zero]
    rw [behind_split front k, ← add_assoc]
  | advance q =>
    have hloc := hok.located
    rw [hpc] at hloc
    obtain rfl : front = q := hloc
    have hunsafe : threadSafe ≠ true := fun hf => absurd (hok.safe hf) (by rw [hpc]; simp [Pc.inCall])
    simp only [step, hpc] at hs
    cases hs
    refine ⟨front, h.move hone ?_ (by simp only [hpc]; rfl) (hok.goto rfl rfl rfl fun hr => by cases hr)
      fun hf => absurd hf hunsafe⟩
    simp only [Reader.holds, hpc]
    rfl
  | next =>
    have hloc := hok.located
    rw [hpc] at hloc
    cases harr : (s.readers t).updateArray with
    | nil =>
      simp only [step, hpc, harr] at hs
      cases hs
      refine ⟨front, h.move hone ?_ (by simp only [hpc]; rfl) ⟨hloc, fun _ => rfl, ⟨[], .inl rfl⟩, fun hr => (by cases hr),
        fun _ => rfl⟩ fun _ => ⟨hloc, id⟩⟩
      simp only [Reader.holds, hpc, harr]
    | cons x rest =>
      cases x with
      | none =>
        obtain ⟨rfl, hfront⟩ := hok.of_breakpoint harr
        simp only [step, hpc, harr] at hs
        cases hs
        refine ⟨front, h.move hone ?_ (by simp only [hpc]; rfl) ⟨hloc, fun _ => rfl, ⟨[], .inl rfl⟩, fun _ => ⟨rfl, hfront⟩,
          fun hr => (by cases hr)⟩ fun _ => ⟨hloc, id⟩⟩
        simp only [Reader.holds, hpc, harr]
        rfl
      | some i =>
        simp only [step, hpc, harr] at hs
        cases hs
        refine ⟨front, h.move hone ?_ (by simp only [hpc]; rfl) ⟨hloc, fun _ => rfl, hok.of_update harr, fun hr => (by cases hr),
          fun hr => (by cases hr)⟩ fun _ => ⟨hloc, id⟩⟩
        simp only [Reader.holds, hpc, harr, zero_add]
        rfl
  | preInsert i =>
    have hloc := hok.located
    rw [hpc] at hloc
    simp only [step, hpc] at hs
    cases hs
    refine ⟨front, h.move hone ?_ ?_ (hok.goto hloc rfl rfl fun hr => by cases hr) fun _ => ⟨hloc, id⟩⟩
    · simp only [Reader.holds, hpc, ← Multiset.cons_coe, ← Multiset.singleton_add]
      abel
    · simp only [hpc, Pc.owed, ← Multiset.cons_coe, Multiset.map_cons, Multiset.sum_cons]
      simp only [St.goto]
      abel
  | insertSrc i =>
    have hloc := hok.located
    rw [hpc] at hloc
    simp only [step, hpc] at hs
    cases hs
    refine ⟨front, h.move hone ?_ ?_ (hok.goto hloc rfl rfl fun hr => by cases hr) fun _ => ⟨hloc, id⟩⟩
    · simp only [Reader.holds, hpc]
      rfl
    · simp only [hpc, Pc.owed, both, St.goto, ← Multiset.cons_coe, ← Multiset.singleton_add]
      abel
  | insertDst i =>
    have hloc := hok.located
    rw [hpc] at hloc
    simp only [step, hpc] at hs
    cases hs
    refine ⟨front, h.move hone ?_ ?_ (hok.goto hloc rfl rfl fun hr => by cases hr) fun _ => ⟨hloc, id⟩⟩
    · simp only [Reader.holds, hpc]
      rfl
    · simp only [hpc, Pc.owed, St.goto, ← Multiset.cons_coe, ← Multiset.singleton_add]
      abel
  | returned => simp [step, hpc] at hs

theorem Inv.exactlyOnce (h : Inv threadSafe upd s front) (hT : 0 < T) : ExactlyOnce upd s := by
  have hsum : ∑ i, both upd i = ((Finset.univ.val : Multiset (Fin m)).map (both upd)).sum := rfl
  have hle : (s.preInserted : Multiset (Fin m)) ≤ Finset.univ.val := by
    rw [← h.split, add_assoc]
    exact Multiset.le_add_right _ _
  refine ⟨Multiset.coe_nodup.1 (Multiset.nodup_of_le hle Finset.univ.nodup), ?_, fun hret => ?_⟩
  · obtain ⟨others, hothers⟩ := Multiset.le_iff_exists_add.1 hle
    have hins : (s.inserted : Multiset (Fin m × V × V)) ≤ ((s.preInserted : Multiset (Fin m)).map (both upd)).sum := by
      rw [← h.copies]
      exact Multiset.le_add_right _ _
    rw [hsum, hothers, Multiset.map_add, Multiset.sum_add]
    exact hins.trans (Multiset.le_add_right _ _)
  · have hfront : front = m := ((h.ok ⟨0, hT⟩).returned (hret _)).2
    have hholds : ∀ t, (s.readers t).holds = 0 := by
      intro t
      rw [Reader.holds, hret t, ((h.ok t).returned (hret t)).1]
      rfl
    have hbehind : behind m front = [] := List.drop_eq_nil_of_le (by rw [List.length_finRange, hfront])
    have hsplit := h.split
    simp only [hholds, hbehind, Finset.sum_const_zero, Multiset.coe_nil, add_zero] at hsplit
    have hcopies := h.copies
    simp only [hret, Pc.owed, Finset.sum_const_zero, add_zero] at hcopies
    exact ⟨hsplit, by rw [hcopies, hsplit, hsum]⟩

end step

/-! ## All interleavings -/

/-- threads a and b read the same position before either stores a new one, and both go on to `pre_insert` -/
def overlap {T : ℕ} (a b : Fin T) : List (Fin T × ℕ) :=
  [(a, 0), (b, 0), (a, 1), (b, 1), (a, 0), (b, 0), (a, 0), (b, 0), (a, 0), (b, 0)]

theorem exec_overlap {a b : Fin T} (hab : a ≠ b) (upd : Fin (m + 1) → V × V) :
    ∃ s, exec (step false upd) (start V (m + 1) T) (overlap a b) = some s ∧ s.preInserted = [0, 0] := by
  have hout : HandsOut (m + 1) 0 1 := ⟨by omega, by decide, by omega⟩
  have hbuf : ∃ rest, buffer (m + 1) 0 1 = some 0 :: rest := by
    rw [buffer, behind, List.drop_zero, List.finRange_succ, List.take_succ_cons, List.map_cons, List.cons_append]
    exact ⟨_, rfl⟩
  obtain ⟨rest, hrest⟩ := hbuf
  simp [overlap, exec, step, start, St.goto, hab, hab.symm, hout, hrest]

/-- **When every update is handed on exactly once.** For a number of stream threads requested at construction, all
interleavings of the stream threads that `process_stream_until` starts hand on every update exactly once, if and only if
the stream is thread safe, one thread was requested, or there is no update before the breakpoint. -/
theorem exactly_once_iff (threadSafe : Bool) (upd : Fin m → V × V) {numStreamThreads : ℕ} (hreq : 1 ≤ numStreamThreads) :
    (∀ ls s, exec (step threadSafe upd) (start V m (construct threadSafe numStreamThreads).member) ls = some s →
      ExactlyOnce upd s) ↔ threadSafe = true ∨ numStreamThreads = 1 ∨ m = 0 := by
  rw [construct_member]
  constructor
  · intro hall
    by_contra hcon
    simp only [not_or, Bool.not_eq_true] at hcon
    obtain ⟨rfl, hne, hm⟩ := hcon
    obtain ⟨m, rfl⟩ := Nat.exists_eq_succ_of_ne_zero hm
    have hab : (⟨0, by omega⟩ : Fin numStreamThreads) ≠ ⟨1, by omega⟩ := fun he => absurd (congrArg Fin.val he) (by simp)
    obtain ⟨s, hs, hpre⟩ := exec_overlap hab upd
    have hnodup := (hall _ s hs).preInserted
    rw [hpre] at hnodup
    exact absurd hnodup (by simp)
  · intro hcond ls s hs
    by_cases hm : m = 0
    · -- there is nothing to hand on
      subst hm
      have hpre : s.preInserted = [] := List.eq_nil_of_subset_nil fun i _ => i.elim0
      have hins : s.inserted = [] := List.eq_nil_of_subset_nil fun x _ => x.1.elim0
      exact ⟨by rw [hpre]; exact List.nodup_nil, by rw [hins]; exact Multiset.zero_le _,
        fun _ => ⟨by rw [hpre]; rfl, by rw [hins]; rfl⟩⟩
    · have hone : threadSafe = true ∨ numStreamThreads ≤ 1 := hcond.imp_right fun h => (h.resolve_right hm).le
      have h := exec_invariant (step threadSafe upd) (I := fun s => ∃ front, Inv threadSafe upd s front)
        (fun s l s' h hs => h.elim fun _ h => step_inv hone h hs) ⟨0, inv_start threadSafe upd⟩ hs
      obtain ⟨front, h⟩ := h
      exact h.exactlyOnce (by omega)

/-- thread a alone hands on the only update of a stream -/
def aloneRun (a : Fin T) : List (Fin T × ℕ) := (a, 0) :: (a, 1) :: List.replicate 6 (a, 0)

open Threads in
theorem exactly_once_alone :
    ∃ s, exec (step false fun _ : Fin 1 => (fst, snd)) (start (Fin 2) 1 (construct false 1).member) (aloneRun (Fin.last 0)) =
        some s ∧ (∀ t, (s.readers t).pc = .returned) ∧ ExactlyOnce (fun _ => (fst, snd)) s := by
  have hend : (exec (step false fun _ : Fin 1 => (fst, snd)) (start (Fin 2) 1 1) (aloneRun (Fin.last 0))).map
      (fun s => decide (∀ t, (s.readers t).pc = .returned)) = some true := by
    decide
  obtain ⟨s, hs, hret⟩ := Option.map_eq_some_iff.1 hend
  exact ⟨s, hs, of_decide_eq_true hret,
    (exactly_once_iff false (fun _ : Fin 1 => (fst, snd)) (le_refl 1)).2 (.inr (.inl rfl)) _ s hs⟩

open Threads in
/-- both threads hand on the only update of a stream that is not thread safe -/
def doubledRun : List (Fin 2 × ℕ) := List.flatten [overlap fst snd, List.replicate 3 (fst, 0), List.replicate 3 (snd, 0)]

open Threads in
/-- **A doubled update.** Two stream threads were requested for a stream that is not thread safe. Both run; when both have
returned, the only update has been passed to `pre_insert` twice and inserted four times. -/
theorem update_doubled :
    ∃ s, exec (step false fun _ : Fin 1 => (fst, snd)) (start (Fin 2) 1 (construct false 2).member) doubledRun = some s ∧
      (∀ t, (s.readers t).pc = .returned) ∧ s.preInserted.length = 2 ∧ s.inserted.length = 4 ∧
        ¬ ExactlyOnce (fun _ => (fst, snd)) s := by
  have hend : (exec (step false fun _ : Fin 1 => (fst, snd)) (start (Fin 2) 1 2) doubledRun).map
      (fun s => (decide (∀ t, (s.readers t).pc = .returned), s.preInserted.length, s.inserted.length)) =
        some (true, 2, 4) := by
    decide
  obtain ⟨s, hs, he⟩ := Option.map_eq_some_iff.1 hend
  simp only [Prod.mk.injEq] at he
  obtain ⟨hret, hpre, hins⟩ := he
  refine ⟨s, hs, of_decide_eq_true hret, hpre, hins, fun hone => ?_⟩
  have hcard := hone.preInserted.length_le_card
  rw [hpre, Fintype.card_fin] at hcard
  exact absurd hcard (by decide)

end GraphStreamingCC.Readers
