import GrammarAutomata.Conversion
import GrammarAutomata.Dfa.Basic
import GrammarAutomata.Nfa.Closure

/-!
# Subset construction

A state of the deterministic automaton stands for the set of states in which the
nondeterministic one can be after a word. The sets are found breadth-first from
the closure of the initial state, the symbols of the alphabet taken in ascending
order, and numbered as they are found. The empty set is a set like any other, so
every row has all symbols of the alphabet.
-/

namespace GrammarAutomata

namespace Nfa

variable (n : Nfa)

/-- The sets of states that reading leads to. -/
def subsetSpace : Space (SortedSet Nat) where
  succ states := n.alphabet.toList.map (n.step states)
  Mem states := ∀ q ∈ states, q < n.size
  succ_mem _ h := by
    obtain ⟨c, _, rfl⟩ := List.mem_map.mp h
    exact step_lt
  bound _ := Nat.pow 2 n.size
  length_le _ hl hmem := SortedSet.length_le_pow hl hmem

theorem mem_subsetSpace_start : ∀ states ∈ [n.start], n.subsetSpace.Mem states := by
  intro states h
  obtain rfl := List.mem_singleton.mp h
  exact start_lt

/-- The sets of states that can be reached by reading, in order of discovery; or,
once there are more than `limit`, those found by then. -/
def subsets (limit : Option Nat) : Numbering (SortedSet Nat) :=
  n.subsetSpace.explore limit [n.start] n.mem_subsetSpace_start

theorem start_mem_subsets (limit : Option Nat) : n.start ∈ n.subsets limit :=
  Space.mem_explore_of_mem _ List.mem_cons_self

theorem size_subsets_pos (limit : Option Nat) : 0 < (n.subsets limit).size := by
  obtain ⟨i, hi⟩ := Numbering.mem_iff_get?.mp (n.start_mem_subsets limit)
  exact Nat.lt_of_le_of_lt (Nat.zero_le i) (Numbering.lt_size_of_get? hi)

/-- The sorted names of the states, joined by commas, in brackets. -/
def subsetName (states : SortedSet Nat) : String :=
  let names := (states.toList.filterMap n.name?).mergeSort fun a b => !decide (b < a)
  "[" ++ ",".intercalate names ++ "]"

/-- What stands for a set of states, where `subsets` numbers the sets. -/
def stateOfSubset (subsets : Numbering (SortedSet Nat)) (states : SortedSet Nat) : DfaState where
  name := n.subsetName states
  subset := states
  accepting := n.Accepting states
  row := .tabulate n.alphabet fun c => subsets.placeOf (n.step states c)

end Nfa

namespace Dfa

/-- The automaton whose states stand for the sets that were found. -/
def ofSubsets (n : Nfa) (subsets : Numbering (SortedSet Nat)) (h : 0 < subsets.size) : Dfa where
  states := subsets.elements.map (n.stateOfSubset subsets)
  alphabet := n.alphabet
  size_pos := by rw [Array.size_map]; exact h

/-- The deterministic automaton that reads as `n` does. -/
def ofNfa (n : Nfa) : Dfa := ofSubsets n (n.subsets none) (n.size_subsets_pos none)

/-- The same, or an error if it has more states than the options allow. -/
def ofNfaWith (n : Nfa) (options : Options) : Except Error Dfa :=
  match options.maxDfaStates with
  | none => .ok (ofNfa n)
  | some k =>
    let found := n.subsets (some k)
    if k < found.size then .error (.tooManyStates k)
    else .ok (ofSubsets n found (n.size_subsets_pos (some k)))

end Dfa

end GrammarAutomata
