/-
The concurrent union-find `DisjointSetUnion_MT` (include/dsu.h), at the granularity of its atomic operations.

`findRoot` and `merge` are programs over the shared array `parent` of sequentially consistent atomics. A call in
progress is a program counter with the values it has loaded (`FindPc`, `MergePc`); one `step` is one atomic load, store
or compare-exchange, and everything between two of them is local. C++ does not fix the order in which the operands of
`!=` are evaluated, neither in the loop test of `find_root` (`parent[parent[u]]` against `parent[u]`) nor in the one of
`merge`; a `Side` at each step picks the operand to go on with, and at a compare-exchange `right` is a spurious failure.

- `St`, `step`: any number of threads, each running a list of calls, over one array. The list `ret` of finished calls
  is a record for stating results; no step reads it.
-/
import Mathlib.Tactic
import GraphStreamingCC.Core.Runs
import GraphStreamingCC.Core.ParentForest

namespace GraphStreamingCC.Dsu

/-- which operand a step evaluates; at a compare-exchange, `right` is a spurious failure -/
inductive Side where
  | left
  | right
deriving DecidableEq, Repr

def Side.other : Side → Side
  | .left => .right
  | .right => .left

variable {n : ℕ}

/-- the result of a merge: (true, new root, new child of it), or (false, 0, 0) -/
structure DSUMergeRet where
  merged : Bool
  root : ℕ
  child : ℕ
deriving DecidableEq, Repr

/-- order based on priority, ties broken by id (smaller ids have higher priority): the first component is the higher -/
def orderEdge (priority : Fin n → ℕ) (a b : Fin n) : Fin n × Fin n :=
  let (a, b) := if priority a = priority b ∧ a > b then (b, a) else (a, b)
  if priority a < priority b then (b, a) else (a, b)

/-- the order itself: priority first, then the smaller id -/
def rank (priority : Fin n → ℕ) (u : Fin n) : ℕ ×ₗ (Fin n)ᵒᵈ := toLex (priority u, OrderDual.toDual u)

/-! ## `find_root` -/

/-- a `find_root` call in progress at item `u`; `z` holds the right operand `parent[u]` once it has been loaded -/
inductive FindPc (n : ℕ) where
  /-- loop test: about to load `parent[u]` inside `parent[parent[u]]` -/
  | outer (u : Fin n) (z : Option (Fin n))
  /-- loop test: `parent[u]` was `x`, about to load `parent[x]` -/
  | inner (u x : Fin n) (z : Option (Fin n))
  /-- loop test: the left operand is `y`, about to load the right operand `parent[u]` -/
  | right (u y : Fin n)
  /-- loop body: about to load `parent[u]` inside `parent[parent[u]].load()` -/
  | halveOuter (u : Fin n)
  | halveInner (u x : Fin n)
  /-- about to store `parent[u] = g` -/
  | store (u g : Fin n)
  /-- about to load `u = parent[u]` -/
  | reload (u : Fin n)
  /-- the loop is left, about to load the return value `parent[u]` -/
  | ret (u : Fin n)
deriving DecidableEq, Repr

/-- leave the loop when the two operands are equal -/
def FindPc.compare (u y z : Fin n) : FindPc n := if y ≠ z then .halveOuter u else .ret u

/-- one atomic operation of `find_root`: the new array, and the next state of the call or its return value -/
def FindPc.step (parent : Fin n → Fin n) (o : Side) : FindPc n → (Fin n → Fin n) × (FindPc n ⊕ Fin n)
  | .outer u none =>
    match o with
    | .left => (parent, .inl (.inner u (parent u) none))
    | .right => (parent, .inl (.outer u (some (parent u))))
  | .outer u (some z) => (parent, .inl (.inner u (parent u) (some z)))
  | .inner u x none =>
    match o with
    | .left => (parent, .inl (.right u (parent x)))
    | .right => (parent, .inl (.inner u x (some (parent u))))
  | .inner u x (some z) => (parent, .inl (.compare u (parent x) z))
  | .right u y => (parent, .inl (.compare u y (parent u)))
  | .halveOuter u => (parent, .inl (.halveInner u (parent u)))
  | .halveInner u x => (parent, .inl (.store u (parent x)))
  | .store u g => (Function.update parent u g, .inl (.reload u))
  | .reload u => (parent, .inl (.outer (parent u) none))
  | .ret u => (parent, .inr (parent u))

/-- a call of `find_root(u)` -/
def FindPc.start (u : Fin n) : FindPc n := .outer u none

/-! ## `merge` -/

/-- the operand of the loop test of `merge` on the given side -/
def pick (o : Side) (a b : Fin n) : Fin n :=
  match o with
  | .left => a
  | .right => b

/-- assign the result of `find_root` to the variable of that side -/
def assign (o : Side) (a b r : Fin n) : Fin n × Fin n :=
  match o with
  | .left => (r, b)
  | .right => (a, r)

/-- a `merge` call in progress with the current values of its variables `a` and `b` -/
inductive MergePc (n : ℕ) where
  /-- at the loop test, neither operand evaluated -/
  | loop (a b : Fin n)
  /-- evaluating the first operand of the test -/
  | first (o : Side) (a b : Fin n) (f : FindPc n)
  /-- evaluating the second operand of the test; `o` is still the side of the first -/
  | second (o : Side) (a b : Fin n) (f : FindPc n)
  /-- ordered, about to compare-exchange `parent[b]` from `b` to `a` -/
  | cas (a b : Fin n)
deriving DecidableEq, Repr

/-- both roots are known: leave the loop, or order them for the compare-exchange -/
def MergePc.test (priority : Fin n → ℕ) (a b : Fin n) : MergePc n ⊕ DSUMergeRet :=
  if a ≠ b then .inl (.cas (orderEdge priority a b).1 (orderEdge priority a b).2) else .inr ⟨false, 0, 0⟩

/-- one atomic operation of `merge` (or the choice of the operand to start with) -/
def MergePc.step (priority : Fin n → ℕ) (parent : Fin n → Fin n) (o : Side) :
    MergePc n → (Fin n → Fin n) × (MergePc n ⊕ DSUMergeRet)
  | .loop a b => (parent, .inl (.first o a b (.start (pick o a b))))
  | .first o' a b f =>
    match f.step parent o with
    | (parent', .inl f') => (parent', .inl (.first o' a b f'))
    | (parent', .inr r) =>
      let ab := assign o' a b r
      (parent', .inl (.second o' ab.1 ab.2 (.start (pick o'.other ab.1 ab.2))))
  | .second o' a b f =>
    match f.step parent o with
    | (parent', .inl f') => (parent', .inl (.second o' a b f'))
    | (parent', .inr r) =>
      let ab := assign o'.other a b r
      (parent', MergePc.test priority ab.1 ab.2)
  | .cas a b =>
    match o with
    | .left =>
      if parent b = b then (Function.update parent b a, .inr ⟨true, a, b⟩) else (parent, .inl (.loop a (parent b)))
    | .right => (parent, .inl (.loop a (parent b)))

/-! ## Threads -/

inductive Call (n : ℕ) where
  | findRoot (u : Fin n)
  | merge (u v : Fin n)
deriving DecidableEq, Repr

inductive CallPc (n : ℕ) where
  | find (f : FindPc n)
  | merge (m : MergePc n)
deriving DecidableEq, Repr

inductive Ret (n : ℕ) where
  | root (r : Fin n)
  | merge (ret : DSUMergeRet)
deriving DecidableEq, Repr

/-- the calls a thread has still to make, and the one it is in -/
structure Thread (n : ℕ) where
  todo : List (Call n)
  cur : Option (Call n × CallPc n)
deriving DecidableEq, Repr

def Call.start : Call n → CallPc n
  | .findRoot u => .find (.start u)
  | .merge u v => .merge (.loop u v)

def CallPc.step (priority : Fin n → ℕ) (parent : Fin n → Fin n) (o : Side) :
    CallPc n → (Fin n → Fin n) × (CallPc n ⊕ Ret n)
  | .find f =>
    match f.step parent o with
    | (parent', .inl f') => (parent', .inl (.find f'))
    | (parent', .inr r) => (parent', .inr (.root r))
  | .merge m =>
    match m.step priority parent o with
    | (parent', .inl m') => (parent', .inl (.merge m'))
    | (parent', .inr r) => (parent', .inr (.merge r))

/-- the shared array, `T` threads, and the calls that have returned, the latest first -/
structure St (n T : ℕ) where
  parent : Fin n → Fin n
  thr : Fin T → Thread n
  ret : List (Call n × Ret n)

/-- the constructor: every item is its own parent; `progs` are the calls of the threads -/
def init {T : ℕ} (progs : Fin T → List (Call n)) : St n T := ⟨id, fun t => ⟨progs t, none⟩, []⟩

/-- thread `t` makes its next atomic operation, or begins its next call -/
def step {T : ℕ} (priority : Fin n → ℕ) (s : St n T) (l : Fin T × Side) : Option (St n T) :=
  match (s.thr l.1).cur with
  | none =>
    match (s.thr l.1).todo with
    | [] => none
    | c :: cs => some { s with thr := Function.update s.thr l.1 ⟨cs, some (c, c.start)⟩ }
  | some (c, pc) =>
    match pc.step priority s.parent l.2 with
    | (parent', .inl pc') =>
      some { s with parent := parent', thr := Function.update s.thr l.1 ⟨(s.thr l.1).todo, some (c, pc')⟩ }
    | (parent', .inr r) =>
      some { parent := parent', thr := Function.update s.thr l.1 ⟨(s.thr l.1).todo, none⟩, ret := (c, r) :: s.ret }

/-- every thread has made all its calls -/
def Done {T : ℕ} (s : St n T) : Prop := ∀ t, (s.thr t).cur = none ∧ (s.thr t).todo = []

end GraphStreamingCC.Dsu
