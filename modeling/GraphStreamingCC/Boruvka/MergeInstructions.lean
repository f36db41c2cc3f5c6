/-
The grouping of the vertices by their root (src/cc_sketch_alg.cpp: `create_merge_instructions`), as an interleaving of the
threads of its parallel region.

The barriers cut the region into phases; a phase ends when every thread has come to its barrier. In the first phase each
thread calls `find_root` for the vertices of its segment, at its atomic operations, and reserves a slice of each root's
block by an atomic capture on `cc_prefix`. Three phases turn `cc_prefix` into its prefix sums; the block of `omp single`
has all threads waiting at its end, so it is part of the barrier step. In the last phase `cc_prefix` does not change any
more, and what a thread does is a list of assignments to `merge_instr`.

The order in which an `unordered_map` is iterated is fixed when the iteration begins (`Label.iterate`). An index out of
bounds ends in the phase `undefined`.
-/
import GraphStreamingCC.Boruvka.Round

namespace GraphStreamingCC.Boruvka.Create

open Dsu

variable {n T : ℕ}

/-- the local variables that outlive the first phase; the i-th entry of `local_cc_idx` belongs to the i-th of
`local_ccs` -/
structure Local (n : ℕ) where
  localCcs : List (Fin n × List (Fin n))
  localCcIdx : List ℕ

/-- `local_ccs[root] = {child}`, or `local_ccs[root].push_back(child)` if there is an entry -/
def pushBack (root child : Fin n) : List (Fin n × List (Fin n)) → List (Fin n × List (Fin n))
  | [] => [(root, [child])]
  | cc :: ccs => if cc.1 = root then (root, cc.2 ++ [child]) :: ccs else cc :: pushBack root child ccs

/-- where a thread is in the first phase -/
inductive Collect (n : ℕ) where
  /-- at the head of the loop over the segment -/
  | visit (i : ℕ)
  /-- in `dsu.find_root(child)` -/
  | find (i : ℕ) (child : Fin n) (f : FindPc n)
  /-- in the loop of the captures, with these entries left -/
  | capture (todo : List (Fin n × List (Fin n)))
deriving DecidableEq

inductive Phase (n T : ℕ) where
  | collect (thr : Fin T → Collect n)
  /-- `cc_prefix[i] += cc_prefix[i-1]`, each thread at its i -/
  | prefixSum (i : Fin T → ℕ)
  | single
  /-- `cc_prefix[i] += range_sums[thr_id]` -/
  | finish (rangeSums : Fin T → ℕ) (i : Fin T → ℕ)
  /-- `merge_instr[placement + j] = {root, vertices[j]}`, these are left -/
  | write (todo : Fin T → List (ℕ × MergeInstr n))
  | undefined

structure St (n T : ℕ) where
  mergeInstr : Fin n → MergeInstr n
  parent : Fin n → Fin n
  ccPrefix : Fin n → ℕ
  locals : Fin T → Local n
  phase : Phase n T

def seg (n : ℕ) (t : Fin T) : ℕ × ℕ := getIthPartition n t T

/-- the parallel region begins -/
def start (mergeInstr : Fin n → MergeInstr n) (parent : Fin n → Fin n) : St n T :=
  ⟨mergeInstr, parent, fun _ => 0, fun _ => ⟨[], []⟩, .collect fun t => .visit (seg n t).1⟩

def St.fault (s : St n T) : St n T := { s with phase := .undefined }

def collectStep (s : St n T) (thr : Fin T → Collect n) (t : Fin T) (o : Side) : Option (St n T) :=
  match thr t with
  | .visit i =>
    if i < (seg n t).2 then
      some <| match instrAt s.mergeInstr i with
        | some m => { s with phase := .collect (Function.update thr t (.find i m.child (.start m.child))) }
        | none => s.fault
    else none
  | .find i child f =>
    match f.step s.parent o with
    | (parent', .inl f') =>
      some { s with parent := parent', phase := .collect (Function.update thr t (.find i child f')) }
    | (parent', .inr root) =>
      some { s with
        parent := parent'
        locals := Function.update s.locals t ⟨pushBack root child (s.locals t).localCcs, (s.locals t).localCcIdx⟩
        phase := .collect (Function.update thr t (.visit (i + 1))) }
  | .capture [] => none
  | .capture (cc :: todo) =>
    let idx := s.ccPrefix cc.1
    some { s with
      ccPrefix := Function.update s.ccPrefix cc.1 ((idx + cc.2.length) % 2 ^ 32)
      locals := Function.update s.locals t ⟨(s.locals t).localCcs, (s.locals t).localCcIdx ++ [idx]⟩
      phase := .collect (Function.update thr t (.capture todo)) }

def prefixStep (s : St n T) (i : Fin T → ℕ) (t : Fin T) : Option (St n T) :=
  if i t < (seg n t).2 then
    some <| if h : i t < n ∧ i t - 1 < n then
      { s with
        ccPrefix := Function.update s.ccPrefix ⟨i t, h.1⟩ ((s.ccPrefix ⟨i t, h.1⟩ + s.ccPrefix ⟨i t - 1, h.2⟩) % 2 ^ 32)
        phase := .prefixSum (Function.update i t (i t + 1)) }
    else s.fault
  else none

def finishStep (s : St n T) (rangeSums : Fin T → ℕ) (i : Fin T → ℕ) (t : Fin T) : Option (St n T) :=
  if i t < (seg n t).2 then
    some <| if h : i t < n then
      { s with
        ccPrefix := Function.update s.ccPrefix ⟨i t, h⟩ ((s.ccPrefix ⟨i t, h⟩ + rangeSums t) % 2 ^ 32)
        phase := .finish rangeSums (Function.update i t (i t + 1)) }
    else s.fault
  else none

def writeStep (s : St n T) (todo : Fin T → List (ℕ × MergeInstr n)) (t : Fin T) : Option (St n T) :=
  match todo t with
  | [] => none
  | (i, m) :: rest =>
    some <| if h : i < n then
      { s with
        mergeInstr := Function.update s.mergeInstr ⟨i, h⟩ m
        phase := .write (Function.update todo t rest) }
    else s.fault

/-- `range_sums[t]`, if the accesses to `cc_prefix` are within bounds; `cur` is a `node_id_t` -/
def rangeSum (ccPrefix : Fin n → ℕ) (numThreads : ℕ) : ℕ → Option ℕ
  | 0 => some 0
  | t + 1 =>
    let cur := ((getIthPartition n t numThreads).2 + 2 ^ 32 - 1) % 2 ^ 32
    if h : cur < n then (rangeSum ccPrefix numThreads t).map fun r => (ccPrefix ⟨cur, h⟩ + r) % 2 ^ 32 else none

/-- `thr_idx`, plus `cc_prefix[root - 1]` if root is not 0; the sum is a `node_id_t` -/
def placement (ccPrefix : Fin n → ℕ) (root : Fin n) (thrIdx : ℕ) : ℕ :=
  if 0 < root.val then (thrIdx + ccPrefix ⟨root - 1, (Nat.sub_le _ _).trans_lt root.isLt⟩) % 2 ^ 32 else thrIdx

/-- the assignments of the last phase -/
def writes (ccPrefix : Fin n → ℕ) (l : Local n) : List (ℕ × MergeInstr n) :=
  (l.localCcs.zip l.localCcIdx).flatMap fun (cc, thrIdx) =>
    cc.2.zipIdx.map fun (v, j) => (placement ccPrefix cc.1 thrIdx + j, ⟨cc.1, v⟩)

/-- all threads have come to the barrier at the end of the phase -/
def barrierStep (s : St n T) : Option (St n T) :=
  match s.phase with
  | .collect thr => if ∀ t, thr t = .capture [] then some { s with phase := .prefixSum fun t => (seg n t).1 + 1 } else none
  | .prefixSum i => if ∀ t, (seg n t).2 ≤ i t then some { s with phase := .single } else none
  | .single =>
    some <| if ∀ t : Fin T, (rangeSum s.ccPrefix T t).isSome then
      { s with phase := .finish (fun t => (rangeSum s.ccPrefix T t).getD 0) fun t =>
          if 0 < t.val then (seg n t).1 else (seg n t).2 }
    else s.fault
  | .finish _ i =>
    if ∀ t, (seg n t).2 ≤ i t then some { s with phase := .write fun t => writes s.ccPrefix (s.locals t) } else none
  | .write _ | .undefined => none

inductive Label (n T : ℕ) where
  | thread (t : Fin T) (o : Side)
  /-- thread t leaves the loop over its segment; it will go through `local_ccs` in this order -/
  | iterate (t : Fin T) (order : List (Fin n × List (Fin n)))
  | barrier

def step (s : St n T) : Label n T → Option (St n T)
  | .thread t o =>
    match s.phase with
    | .collect thr => collectStep s thr t o
    | .prefixSum i => prefixStep s i t
    | .finish rangeSums i => finishStep s rangeSums i t
    | .write todo => writeStep s todo t
    | .single | .undefined => none
  | .iterate t order =>
    match s.phase with
    | .collect thr =>
      match thr t with
      | .visit i =>
        if (seg n t).2 ≤ i ∧ order.Perm (s.locals t).localCcs then
          some { s with
            locals := Function.update s.locals t ⟨order, (s.locals t).localCcIdx⟩
            phase := .collect (Function.update thr t (.capture order)) }
        else none
      | .find .. | .capture _ => none
    | .prefixSum _ | .single | .finish .. | .write _ | .undefined => none
  | .barrier => barrierStep s

/-- all assignments are made -/
def Phase.Finished : Phase n T → Prop
  | .write todo => ∀ t, todo t = []
  | .collect _ | .prefixSum _ | .single | .finish .. | .undefined => False

instance : (ph : Phase n T) → Decidable ph.Finished
  | .write todo => inferInstanceAs (Decidable (∀ t, todo t = []))
  | .collect _ | .prefixSum _ | .single | .finish .. | .undefined => inferInstanceAs (Decidable False)

/-- `create_merge_instructions` returns -/
def Done (s : St n T) : Prop := s.phase.Finished

instance (s : St n T) : Decidable (Done s) := inferInstanceAs (Decidable s.phase.Finished)

end GraphStreamingCC.Boruvka.Create
