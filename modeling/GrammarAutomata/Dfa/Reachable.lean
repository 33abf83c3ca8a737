import GrammarAutomata.Dfa.Basic
import GrammarAutomata.Search

/-!
# Reachable states

The states that some run leads to from state 0. Rows may name states that do not
exist; as soon as a run leads to one of them there is no answer.
-/

namespace GrammarAutomata.Dfa

variable (d : Dfa)

/-- The states that the row of `q` names. -/
def successors (q : Nat) : List Nat :=
  match d.state? q with
  | some s => s.row.targets
  | none => []

/-- All states that rows name. -/
def targets : List Nat := d.states.toList.flatMap (·.row.targets)

theorem mem_targets_of_mem_successors {q r : Nat} (h : r ∈ d.successors q) : r ∈ d.targets := by
  unfold successors at h
  split at h
  · rename_i s hs
    exact List.mem_flatMap.mpr ⟨s, Array.mem_toList_iff.mpr (Array.mem_of_getElem? hs), h⟩
  · exact absurd h List.not_mem_nil

/-- The states that runs from state 0 may meet, existing or not. -/
def met : Space Nat where
  succ := d.successors
  Mem q := q ∈ 0 :: d.targets
  succ_mem _ h := List.mem_cons_of_mem _ (d.mem_targets_of_mem_successors h)
  bound _ := (0 :: d.targets).length
  length_le _ hl hmem := hl.length_le_of_subset hmem

/-- The states that runs from state 0 lead to, or `none` if one of them does not
exist. -/
def reachable? : Option (SortedSet Nat) :=
  let found := d.met.explore none [0] fun _ h => List.mem_singleton.mp h ▸ List.mem_cons_self
  if ∀ q ∈ found.toList, q < d.size then some (.ofList found.toList) else none

end GrammarAutomata.Dfa
