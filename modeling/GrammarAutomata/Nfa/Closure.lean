import GrammarAutomata.Nfa.Basic
import GrammarAutomata.Search
import GrammarAutomata.Word

/-!
# Moving without reading, and reading

The states an automaton can be in form a set. Moving without reading adds to it
all that epsilon transitions lead to (`Nfa.closure`); reading a symbol replaces
it by the closure of the symbol's targets (`Nfa.step`). Reading a word symbol by
symbol, from the closure of the initial state, simulates the automaton
(`Nfa.after`).
-/

namespace GrammarAutomata.Nfa

variable (n : Nfa)

/-- The states that can be met on the way from `sources` along epsilon
transitions. -/
def silent (sources : List Nat) : Space Nat where
  succ q := (n.targets q .epsilon).toList
  Mem q := q ∈ sources ∨ q < n.size
  succ_mem _ h := .inr (targets_lt h)
  bound _ := sources.length + n.size
  length_le l hl hmem := by
    have hsub : l ⊆ sources ++ List.range n.size := fun q hq => by
      rcases hmem q hq with h | h
      · exact List.mem_append_left _ h
      · exact List.mem_append_right _ (List.mem_range.mpr h)
    have := hl.length_le_of_subset hsub
    rwa [List.length_append, List.length_range] at this

/-- All states that epsilon transitions lead to from one of the sources, the
sources included. -/
def closure (sources : List Nat) : SortedSet Nat :=
  .ofList ((n.silent sources).explore none sources fun _ h => .inl h).toList

/-- The states that can be reached from `q` without reading. -/
def epsilonClosure (q : Nat) : SortedSet Nat := n.closure [q]

/-- The states that can be reached from a state in `states` by a transition that
reads `c`, followed by any number of transitions that read nothing. -/
def step (states : SortedSet Nat) (c : Char) : SortedSet Nat :=
  n.closure (states.toList.flatMap fun q => (n.targets q (.symbol c)).toList)

/-- The states in which the automaton can be before it has read anything. -/
def start : SortedSet Nat := n.epsilonClosure n.initial

/-- The states in which the automaton can be after it has read `w`. -/
def after (w : Word) : SortedSet Nat := w.foldl n.step n.start

/-- The states in which the automaton can be after each beginning of `w`, if it
can be in `states` before. -/
def trace (states : SortedSet Nat) : Word → List (SortedSet Nat)
  | [] => [states]
  | c :: w => states :: trace (n.step states c) w

/-- Whether one of the states is final. -/
def Accepting (states : SortedSet Nat) : Prop := ∃ q ∈ states.toList, q ∈ n.finals

instance (states : SortedSet Nat) : Decidable (n.Accepting states) :=
  inferInstanceAs (Decidable (∃ q ∈ states.toList, q ∈ n.finals))

variable {n} {sources : List Nat}

theorem mem_closure_of_mem {q : Nat} (h : q ∈ sources) : q ∈ n.closure sources :=
  SortedSet.mem_ofList.mpr (Numbering.mem_toList.mpr (Space.mem_explore_of_mem _ h))

/-- A closure contains what epsilon transitions lead to from its members. -/
theorem mem_closure_of_target {q r : Nat} (hq : q ∈ n.closure sources)
    (hr : ⟨q, .epsilon, r⟩ ∈ n.transitions) : r ∈ n.closure sources :=
  SortedSet.mem_ofList.mpr (Numbering.mem_toList.mpr (Space.explore_closed _
    (Numbering.mem_toList.mp (SortedSet.mem_ofList.mp hq)) (mem_targets.mpr hr)))

/-- What holds of the sources and is kept by epsilon transitions holds of the
closure. -/
theorem closure_induction {P : Nat → Prop} (source : ∀ q ∈ sources, P q)
    (move : ∀ q r, P q → ⟨q, .epsilon, r⟩ ∈ n.transitions → P r) :
    ∀ q ∈ n.closure sources, P q := fun q hq =>
  Space.explore_induction _ source (fun q r h hr => move q r h (mem_targets.mp hr)) q
    (Numbering.mem_toList.mp (SortedSet.mem_ofList.mp hq))

theorem closure_lt (h : ∀ q ∈ sources, q < n.size) : ∀ q ∈ n.closure sources, q < n.size :=
  closure_induction h fun _ _ _ hr => lt_size_of_mem_transitions hr

theorem start_lt : ∀ q ∈ n.start, q < n.size :=
  closure_lt fun _ hq => List.mem_singleton.mp hq ▸ n.initial_lt

/-- What a symbol leads to exists. -/
theorem flatMap_targets_lt {states : List Nat} {l : Label} :
    ∀ q ∈ states.flatMap fun p => (n.targets p l).toList, q < n.size := by
  intro q hq
  obtain ⟨p, _, hp⟩ := List.mem_flatMap.mp hq
  exact targets_lt hp

theorem step_lt {states : SortedSet Nat} {c : Char} : ∀ q ∈ n.step states c, q < n.size :=
  closure_lt flatMap_targets_lt

end GrammarAutomata.Nfa
