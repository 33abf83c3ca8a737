import GrammarAutomata.Nfa.Basic

/-!
# Reversal

The reversed automaton takes every transition backwards. Its initial state is a
new one, from which it can move without reading to each state that was final, and
its only final state is the one that was initial; so it reads backwards what was
accepted before.
-/

namespace GrammarAutomata.Nfa

variable (n : Nfa)

/-- The steps from the new initial state to the former final states. -/
def entryTransitions : List Transition := n.finals.toList.map fun q => ⟨n.size, .epsilon, q⟩

/-- All steps of the reversed automaton. -/
def reversedTransitions : List Transition :=
  n.entryTransitions ++ n.transitions.map Transition.flipped

variable {n}

theorem mem_reversedTransitions {t : Transition} : t ∈ n.reversedTransitions ↔
    (t.source = n.size ∧ t.label = .epsilon ∧ t.target ∈ n.finals) ∨
      t.flipped ∈ n.transitions := by
  simp only [reversedTransitions, entryTransitions, List.mem_append, List.mem_map,
    SortedSet.mem_toList]
  constructor
  · rintro (⟨q, hq, rfl⟩ | ⟨s, hs, rfl⟩)
    · exact .inl ⟨rfl, rfl, hq⟩
    · exact .inr hs
  · rintro (⟨hs, hl, ht⟩ | h)
    · obtain ⟨source, label, target⟩ := t
      obtain rfl : source = n.size := hs
      obtain rfl : label = .epsilon := hl
      exact .inl ⟨target, ht, rfl⟩
    · exact .inr ⟨t.flipped, h, rfl⟩

variable (n)

/-- The reversed automaton has one state more. -/
theorem reversedTransitions_lt : ∀ t ∈ n.reversedTransitions,
    t.source < (n.kinds ++ [StateKind.entry]).length ∧
      t.target < (n.kinds ++ [StateKind.entry]).length := by
  intro t ht
  rw [List.length_append, length_kinds, List.length_singleton]
  rcases mem_reversedTransitions.mp ht with ⟨hs, _, ht⟩ | h
  · exact ⟨Nat.lt_succ_of_le (Nat.le_of_eq hs), Nat.lt_succ_of_lt (n.finals_lt _ ht)⟩
  · exact ⟨Nat.lt_succ_of_lt (lt_size_of_mem_transitions h), Nat.lt_succ_of_lt (source_lt h)⟩

/-- The automaton that reads everything backwards. -/
def reverse : Nfa :=
  ofTransitions (n.kinds ++ [.entry]) n.alphabet n.size {n.initial} n.reversedTransitions
    (by rw [List.length_append, length_kinds]; exact Nat.lt_succ_self _)
    (fun q hq => by
      obtain rfl := SortedSet.mem_singleton.mp hq
      rw [List.length_append, length_kinds]
      exact Nat.lt_succ_of_lt n.initial_lt)
    n.reversedTransitions_lt

/-- The automaton `m` is `n` after any number of reversals. -/
inductive Turned : Nfa → Prop
  | refl : Turned n
  | reverse {m : Nfa} : Turned m → Turned m.reverse

end GrammarAutomata.Nfa
