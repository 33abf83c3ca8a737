import GrammarAutomata.Dfa.Basic
import GrammarAutomata.Dot.Drawing

/-!
# Drawing a deterministic automaton

Nodes are states by number, edges carry all symbols that lead from one state to
another. There is no drawing if a row names a state that does not exist.
-/

namespace GrammarAutomata.Dfa

variable (d : Dfa)

/-- The steps out of a state, with their labels. -/
def steps (q : Nat) : List (Label × Nat) :=
  match d.state? q with
  | some s => s.row.entries.map fun e => (.symbol e.1, e.2)
  | none => []

variable {d} in
theorem mem_steps {p q : Nat} {l : Label} : (l, q) ∈ d.steps p ↔
    ∃ s c, d.state? p = some s ∧ l = .symbol c ∧ s.row.get? c = some q := by
  unfold steps
  split
  · rename_i s hs
    simp only [hs, List.mem_map, Option.some.injEq, ← SortedMap.mem_entries_iff]
    refine ⟨?_, ?_⟩
    · rintro ⟨⟨c, r⟩, he, heq⟩
      cases heq
      exact ⟨s, c, rfl, rfl, he⟩
    · rintro ⟨_, c, rfl, rfl, he⟩
      exact ⟨_, he, rfl⟩
  · rename_i hnone
    simp [hnone]

/-- The names of the states. -/
def names : Array String := d.states.map (·.name)

/-- Whether reading may end in a state. -/
def isFinal (q : Nat) : Bool := (d.state? q).any (·.accepting)

/-- The drawing of the transitions between states that exist. -/
def drawing : Dot.Drawing where
  title := "DFA"
  names := d.names
  finals := (List.finRange _).filter fun q => d.isFinal q
  start := ⟨0, by rw [names, Array.size_map]; exact d.size_pos⟩
  edges := Dot.edgesOf _ d.steps

/-- The automaton in the DOT language, or `none` if a row names a state that does
not exist. -/
def toDot? : Option String :=
  if ∀ s ∈ d.states, ∀ q ∈ s.row.targets, q < d.size then some d.drawing.text else none

end GrammarAutomata.Dfa
