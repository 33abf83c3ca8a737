import GrammarAutomata.Nfa.Reverse
import GrammarAutomata.Proofs.SubsetConstruction

/-!
# The language of the reversed automaton

Between the states of an automaton the reversed one has the same paths, turned
around (`Nfa.path_reverse_iff`). Nothing leads to the new initial state, so a path
that begins there leaves it by one silent transition to a former final state and
never comes back (`Nfa.path_reverse_size_iff`). Both ends together turn the
language around.
-/

namespace GrammarAutomata.Nfa

variable {n : Nfa}

/-! ## What the reversed automaton is made of -/

@[simp] theorem size_reverse : n.reverse.size = n.size + 1 := by
  rw [← length_kinds, reverse, kinds_ofTransitions, List.length_append, length_kinds,
    List.length_singleton]

@[simp] theorem alphabet_reverse : n.reverse.alphabet = n.alphabet := rfl

theorem Turned.alphabet_eq {m : Nfa} (h : n.Turned m) : m.alphabet = n.alphabet := by
  induction h with
  | refl => rfl
  | reverse _ ih => exact ih

@[simp] theorem initial_reverse : n.reverse.initial = n.size := rfl

@[simp] theorem mem_finals_reverse {q : Nat} : q ∈ n.reverse.finals ↔ q = n.initial :=
  SortedSet.mem_singleton

theorem mem_transitions_reverse {p q : Nat} {l : Label} :
    ⟨p, l, q⟩ ∈ n.reverse.transitions ↔
      (p = n.size ∧ l = .epsilon ∧ q ∈ n.finals) ∨ ⟨q, l, p⟩ ∈ n.transitions :=
  mem_transitions_ofTransitions.trans mem_reversedTransitions

/-- Nothing leads to the new initial state. -/
theorem target_lt_of_mem_transitions_reverse {p q : Nat} {l : Label}
    (h : ⟨p, l, q⟩ ∈ n.reverse.transitions) : q < n.size := by
  rcases mem_transitions_reverse.mp h with ⟨_, _, hq⟩ | h
  · exact n.finals_lt q hq
  · exact source_lt h

/-- Away from the new initial state every transition is one that was turned
around. -/
theorem mem_transitions_of_reverse {p q : Nat} {l : Label} (hp : p < n.size)
    (h : ⟨p, l, q⟩ ∈ n.reverse.transitions) : ⟨q, l, p⟩ ∈ n.transitions := by
  rcases mem_transitions_reverse.mp h with ⟨rfl, _, _⟩ | h
  · exact absurd hp (Nat.lt_irrefl _)
  · exact h

/-! ## Paths turned around -/

variable {p q : Nat} {w : Word}

theorem Path.turned (h : n.Path p w q) : n.reverse.Path q w.reverse p := by
  induction h with
  | nil q => exact .nil q
  | epsilon ht _ ih =>
    have hback := Path.of_epsilon (mem_transitions_reverse.mpr (.inr ht))
    simpa using ih.append hback
  | symbol ht _ ih =>
    have hback := Path.of_symbol (mem_transitions_reverse.mpr (.inr ht))
    simpa using ih.append hback

theorem Path.of_reverse (h : n.reverse.Path p w q) (hp : p < n.size) :
    n.Path q w.reverse p := by
  induction h with
  | nil q => exact .nil q
  | epsilon ht _ ih =>
    have hback := Path.of_epsilon (mem_transitions_of_reverse hp ht)
    simpa using (ih (target_lt_of_mem_transitions_reverse ht)).append hback
  | symbol ht _ ih =>
    have hback := Path.of_symbol (mem_transitions_of_reverse hp ht)
    simpa using (ih (target_lt_of_mem_transitions_reverse ht)).append hback

/-- Between former states paths are turned around. -/
theorem path_reverse_iff (hp : p < n.size) :
    n.reverse.Path p w q ↔ n.Path q w.reverse p := by
  refine ⟨fun h => h.of_reverse hp, fun h => ?_⟩
  have := h.turned
  rwa [List.reverse_reverse] at this

/-- From the new initial state to a former state: first silently to a state that
was final, and from there backwards. -/
theorem path_reverse_size_iff (hq : q < n.size) :
    n.reverse.Path n.size w q ↔ ∃ f ∈ n.finals, n.Path q w.reverse f := by
  refine ⟨fun h => ?_, fun ⟨f, hf, h⟩ => ?_⟩
  · cases h with
    | nil => exact absurd hq (Nat.lt_irrefl _)
    | epsilon ht h =>
      rcases mem_transitions_reverse.mp ht with ⟨_, _, hf⟩ | ht
      · exact ⟨_, hf, h.of_reverse (n.finals_lt _ hf)⟩
      · exact absurd (lt_size_of_mem_transitions ht) (Nat.lt_irrefl _)
    | symbol ht _ =>
      -- the new state reads nothing, and no transition led to it before
      rcases mem_transitions_reverse.mp ht with ⟨_, hl, _⟩ | ht
      · cases hl
      · exact absurd (lt_size_of_mem_transitions ht) (Nat.lt_irrefl _)
  · have hentry : ⟨n.size, .epsilon, f⟩ ∈ n.reverse.transitions :=
      mem_transitions_reverse.mpr (.inl ⟨rfl, rfl, hf⟩)
    exact .epsilon hentry ((path_reverse_iff (n.finals_lt f hf)).mpr h)

/-! ## The language turned around -/

theorem accepts_reverse_iff : n.reverse.Accepts w ↔ n.Accepts w.reverse := by
  calc n.reverse.Accepts w
      ↔ n.reverse.Path n.size w n.initial := accepts_iff_of_finals rfl
    _ ↔ n.Accepts w.reverse := path_reverse_size_iff n.initial_lt

theorem accepts_reverse_reverse_iff : n.reverse.reverse.Accepts w ↔ n.Accepts w := by
  rw [accepts_reverse_iff, accepts_reverse_iff, List.reverse_reverse]

/-- **Reversal turns the language around.** So it does behind the subset
construction, and twice reversed an automaton accepts what it accepted before. -/
theorem reverse_reads_backwards (n : Nfa) (w : Word) :
    (n.reverse.Accepts w ↔ n.Accepts w.reverse) ∧
    (∃ b, (Dfa.ofNfa n.reverse).accepts? w = some b ∧
      (Dfa.ofNfa n).accepts? w.reverse = some b) ∧
    (n.reverse.reverse.Accepts w ↔ n.Accepts w) ∧
    (∃ b, (Dfa.ofNfa n.reverse.reverse).accepts? w = some b ∧
      (Dfa.ofNfa n).accepts? w = some b) :=
  ⟨accepts_reverse_iff,
    Dfa.accepts?_ofNfa_congr rfl (fun _ => List.mem_reverse.symm) accepts_reverse_iff,
    accepts_reverse_reverse_iff,
    Dfa.accepts?_ofNfa_congr rfl (fun _ => Iff.rfl) accepts_reverse_reverse_iff⟩

end GrammarAutomata.Nfa
