import GrammarAutomata.Nfa.Store

/-!
# Nondeterministic automata

An automaton is a well-formed store of its states and transitions: every state that is
mentioned exists, and no label stands for the empty set of targets, because the type says so.
What an automaton shows is read off its store. Automata that show the same are equal
(`Nfa.eq_of_mem_transitions_iff`).
-/

namespace GrammarAutomata

/-- A finite automaton that may have a choice between several transitions and may
move without reading. -/
structure Nfa extends NfaStore where
  /-- all states that are mentioned exist, and no label stands for no state -/
  wellFormed : toNfaStore.WellFormed

namespace Nfa

export NfaStore (length_kinds size_names mem_transitions mem_targets)

theorem eq_of_toNfaStore_eq {n m : Nfa} (h : n.toNfaStore = m.toNfaStore) : n = m := by
  cases n; cases m; cases h; rfl

instance : DecidableEq Nfa := fun n m =>
  decidable_of_iff (n.toNfaStore = m.toNfaStore) ⟨eq_of_toNfaStore_eq, fun h => h ▸ rfl⟩

/-! ## Putting an automaton together -/

/-- The automaton with one state, which is initial, and no moves. -/
def single (alphabet : SortedSet Char) (kind : StateKind) : Nfa :=
  ⟨.single alphabet kind, NfaStore.wellFormed_single⟩

variable (n : Nfa)

/-- The initial state exists. -/
theorem initial_lt : n.initial < n.size := n.wellFormed.initial_lt

/-- The final states exist. -/
theorem finals_lt : ∀ q ∈ n.finals, q < n.size := n.wellFormed.finals_lt

/-- Add a state; its number is the former size. -/
def addState (kind : StateKind) : Nfa := ⟨n.toNfaStore.addState kind, n.wellFormed.addState kind⟩

/-- Add a transition between states that exist; nothing changes if it is there
already. -/
def addTransition (t : Transition) (hs : t.source < n.size) (ht : t.target < n.size) : Nfa :=
  ⟨n.toNfaStore.addTransition t, n.wellFormed.addTransition hs ht⟩

/-- Let reading begin in `q`. -/
def setInitial (q : Nat) (hq : q < n.size) : Nfa :=
  ⟨n.toNfaStore.setInitial q, n.wellFormed.setInitial hq⟩

/-- Make `q` a final state. -/
def addFinal (q : Nat) (hq : q < n.size) : Nfa :=
  ⟨n.toNfaStore.addFinal q, n.wellFormed.addFinal hq⟩

/-- The automaton with the given kinds of states and the given transitions. -/
def ofTransitions (kinds : List StateKind) (alphabet : SortedSet Char) (initial : Nat)
    (finals : SortedSet Nat) (transitions : List Transition) (initial_lt : initial < kinds.length)
    (finals_lt : ∀ q ∈ finals, q < kinds.length)
    (transitions_lt : ∀ t ∈ transitions, t.source < kinds.length ∧ t.target < kinds.length) :
    Nfa where
  toNfaStore := (NfaStore.ofKinds kinds alphabet initial finals).addTransitions transitions
  wellFormed := (NfaStore.wellFormed_ofKinds initial_lt finals_lt).addTransitions transitions_lt

/-! ## What it shows -/

variable {n}

theorem source_lt {t : Transition} (h : t ∈ n.transitions) : t.source < n.size :=
  n.wellFormed.source_lt h

theorem lt_size_of_mem_transitions {t : Transition} (h : t ∈ n.transitions) : t.target < n.size :=
  n.wellFormed.target_lt t h

theorem targets_lt {q r : Nat} {l : Label} (h : r ∈ n.targets q l) : r < n.size :=
  lt_size_of_mem_transitions (mem_targets.mp h)

theorem kinds_single {alphabet : SortedSet Char} {kind : StateKind} :
    (single alphabet kind).kinds = [kind] := rfl

theorem not_mem_transitions_single {alphabet : SortedSet Char} {kind : StateKind} {t : Transition} :
    t ∉ (single alphabet kind).transitions := NfaStore.not_mem_transitions_ofKinds

theorem mem_transitions_ofTransitions {kinds : List StateKind} {alphabet : SortedSet Char}
    {initial : Nat} {finals : SortedSet Nat} {transitions : List Transition} {hi hf ht}
    {t : Transition} :
    t ∈ (ofTransitions kinds alphabet initial finals transitions hi hf ht).transitions ↔
      t ∈ transitions := by
  refine (NfaStore.mem_transitions_addTransitions fun t hmem => ?_).trans
    (or_iff_left NfaStore.not_mem_transitions_ofKinds)
  rw [NfaStore.size_rows_ofKinds]
  exact (ht t hmem).1

@[simp] theorem kinds_ofTransitions {kinds : List StateKind} {alphabet : SortedSet Char}
    {initial : Nat} {finals : SortedSet Nat} {transitions : List Transition} {hi hf ht} :
    (ofTransitions kinds alphabet initial finals transitions hi hf ht).kinds = kinds := rfl

/-- Automata that show the same are the same. -/
theorem eq_of_mem_transitions_iff {m : Nfa} (hkinds : n.kinds = m.kinds)
    (htransitions : ∀ t, t ∈ n.transitions ↔ t ∈ m.transitions) (halphabet : n.alphabet = m.alphabet)
    (hinitial : n.initial = m.initial) (hfinals : n.finals = m.finals) : n = m :=
  eq_of_toNfaStore_eq (n.wellFormed.eq_of_mem_transitions_iff m.wellFormed hkinds htransitions
    halphabet hinitial hfinals)

end Nfa

end GrammarAutomata
