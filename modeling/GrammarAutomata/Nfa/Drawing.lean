import GrammarAutomata.Dot.Drawing
import GrammarAutomata.Nfa.Basic

/-!
# Drawing a nondeterministic automaton

Nodes are states by number, edges carry the labels of all transitions between two
states.
-/

namespace GrammarAutomata.Nfa

variable (n : Nfa)

/-- The steps out of a state, with their labels. -/
def steps (q : Nat) : List (Label × Nat) := (n.moves q).toList.map fun m => (m.label, m.target)

variable {n} in
theorem mem_steps {p q : Nat} {l : Label} : (l, q) ∈ n.steps p ↔ ⟨p, l, q⟩ ∈ n.transitions := by
  rw [mem_transitions, steps, List.mem_map]
  refine ⟨?_, fun h => ⟨_, Moves.mem_toList.mpr h, rfl⟩⟩
  rintro ⟨⟨l', r⟩, h, heq⟩
  cases heq
  exact Moves.mem_toList.mp h

/-- The drawing of an automaton. -/
def drawing : Dot.Drawing where
  title := "NFA"
  names := n.names
  finals := n.finals.toList.attach.map fun q =>
    ⟨q.1, by rw [size_names]; exact n.finals_lt q.1 q.2⟩
  start := ⟨n.initial, by rw [size_names]; exact n.initial_lt⟩
  edges := Dot.edgesOf _ n.steps

/-- The automaton in the DOT language. -/
def toDot : String := n.drawing.text

end GrammarAutomata.Nfa
