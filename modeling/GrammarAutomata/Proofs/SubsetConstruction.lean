import GrammarAutomata.Dfa.OfNfa
import GrammarAutomata.Dfa.Run
import GrammarAutomata.Proofs.Simulation

/-!
# Runs of the subset construction

A run of the deterministic automaton and a simulation of the nondeterministic one
go side by side: where the run is in state `i`, the simulation is in the set with
number `i` (`Dfa.exists_run_ofNfa`). Since reading in the alphabet never leaves
the sets that were found, there is always such a run, and it ends where the paths
end that read the same word.
-/

namespace GrammarAutomata

namespace Nfa

variable {n : Nfa} {limit : Option Nat} {states : SortedSet Nat} {i : Nat} {c : Char}

/-! ## The sets that are found -/

/-- Number 0 is the set in which reading begins. -/
theorem get?_subsets_zero : (n.subsets limit).get? 0 = some n.start :=
  Space.get?_exploreFrom_of_eq_some _
    (Numbering.get?_add_of_not_mem (Numbering.not_mem_empty n.start))

/-- Reading a symbol of the alphabet leads from a set that was found to another. -/
theorem step_mem_subsets (hs : states ∈ n.subsets none) (hc : c ∈ n.alphabet) :
    n.step states c ∈ n.subsets none :=
  Space.explore_closed _ hs (List.mem_map.mpr ⟨c, hc, rfl⟩)

/-- It has the number that a row names. -/
theorem get?_placeOf_step (h : (n.subsets none).get? i = some states) (hc : c ∈ n.alphabet) :
    (n.subsets none).get? ((n.subsets none).placeOf (n.step states c)) =
      some (n.step states c) :=
  Numbering.get?_placeOf (step_mem_subsets (Numbering.mem_of_get? h) hc)

/-- With a limit the same sets are found, unless there are more. -/
theorem subsets_limit_eq {k : Nat} (h : (n.subsets none).size ≤ k) :
    n.subsets (some k) = n.subsets none := Space.explore_limit_eq _ h

/-- If there are more, more than the limit are found. -/
theorem lt_size_subsets_limit {k : Nat} (h : k < (n.subsets none).size) :
    k < (n.subsets (some k)).size := Space.lt_size_explore_limit _ h

end Nfa

namespace Dfa

/-! ## Runs and acceptance -/

section

variable {d : Dfa} {p q : Nat} {w : Word} {s : DfaState}

/-- A run that ends in a state that exists tells whether its word is accepted. -/
theorem acceptsFrom?_of_run (h : d.Run p w q) (hs : d.state? q = some s) :
    d.acceptsFrom? p w = some s.accepting := by
  induction h with
  | nil => rw [acceptsFrom?, hs]; rfl
  | cons hp hc _ ih => rw [acceptsFrom?, hp, Option.bind_some, hc]; exact ih hs

theorem accepts?_of_run (hw : ∀ c ∈ w, c ∈ d.alphabet) (h : d.Run 0 w q)
    (hs : d.state? q = some s) : d.accepts? w = some s.accepting := by
  rw [accepts?, if_pos (List.all_eq_true.mpr fun c hc => decide_eq_true (hw c hc))]
  exact acceptsFrom?_of_run h hs

theorem accepts?_of_not_mem {c : Char} (hc : c ∈ w) (h : c ∉ d.alphabet) :
    d.accepts? w = some false := by
  rw [accepts?, if_neg]
  intro hall
  exact h (of_decide_eq_true (List.all_eq_true.mp hall c hc))

end

/-! ## Runs of the subset construction -/

variable {n : Nfa} {states : SortedSet Nat} {i : Nat} {c : Char} {w : Word}

@[simp] theorem size_ofNfa : (ofNfa n).size = (n.subsets none).size := Array.size_map

/-- The state whose number is that of a set stands for the set. -/
theorem state?_ofNfa (h : (n.subsets none).get? i = some states) :
    (ofNfa n).state? i = some (n.stateOfSubset (n.subsets none) states) := by
  show ((n.subsets none).elements.map _)[i]? = _
  rw [Array.getElem?_map, show (n.subsets none).elements[i]? = some states from h]
  rfl

/-- Every state stands for the set of its number. -/
theorem exists_subset_of_state? {s : DfaState} (h : (ofNfa n).state? i = some s) :
    ∃ states, (n.subsets none).get? i = some states ∧
      s = n.stateOfSubset (n.subsets none) states := by
  have hmap : (n.subsets none).elements[i]?.map (n.stateOfSubset (n.subsets none)) = some s := by
    rw [← Array.getElem?_map]
    exact h
  obtain ⟨states, hstates, hs⟩ := Option.map_eq_some_iff.mp hmap
  exact ⟨states, hstates, hs.symm⟩

/-- Between states that stand for sets a transition is a step between the sets. There
are transitions for the symbols of the alphabet and for no others. -/
theorem get?_row_ofNfa : (n.stateOfSubset (n.subsets none) states).row.get? c =
    if c ∈ n.alphabet then some ((n.subsets none).placeOf (n.step states c)) else none :=
  Row.get?_tabulate

/-- From the state of a set every word over the alphabet has a run. It ends in the
state of the set that the word leads to. -/
theorem exists_run_ofNfa (h : (n.subsets none).get? i = some states)
    (hw : ∀ c ∈ w, c ∈ n.alphabet) :
    ∃ j, (ofNfa n).Run i w j ∧ (n.subsets none).get? j = some (w.foldl n.step states) := by
  induction w generalizing i states with
  | nil => exact ⟨i, .nil i, h⟩
  | cons c w ih =>
    -- the set behind the symbol has been found, so the row names its number
    have hc : c ∈ n.alphabet := hw c List.mem_cons_self
    obtain ⟨j, hrun, hj⟩ := ih (Nfa.get?_placeOf_step h hc) fun d hd => hw d (List.mem_cons_of_mem _ hd)
    exact ⟨j, .cons (state?_ofNfa h) (get?_row_ofNfa.trans (if_pos hc)) hrun, hj⟩

/-- A word over the alphabet has a run from the beginning, and it ends in the
state of the set in which the nondeterministic automaton can be. -/
theorem exists_run_after (hw : ∀ c ∈ w, c ∈ n.alphabet) :
    ∃ i, (ofNfa n).Run 0 w i ∧
      (ofNfa n).state? i = some (n.stateOfSubset (n.subsets none) (n.after w)) := by
  obtain ⟨i, hrun, hi⟩ := exists_run_ofNfa Nfa.get?_subsets_zero hw
  exact ⟨i, hrun, state?_ofNfa hi⟩

/-- A run reads symbols of the alphabet only. -/
theorem mem_alphabet_of_run {p q : Nat} (h : (ofNfa n).Run p w q) : ∀ c ∈ w, c ∈ n.alphabet := by
  induction h with
  | nil => exact nofun
  | @cons _ _ _ c _ _ hs hc _ ih =>
    obtain ⟨states, _, rfl⟩ := exists_subset_of_state? hs
    refine List.forall_mem_cons.mpr ⟨?_, ih⟩
    by_cases hmem : c ∈ n.alphabet
    · exact hmem
    · rw [get?_row_ofNfa, if_neg hmem] at hc
      cases hc

/-- A run from the beginning ends in the state of the set in which the
nondeterministic automaton can be. -/
theorem state?_of_run {q : Nat} (h : (ofNfa n).Run 0 w q) :
    (ofNfa n).state? q = some (n.stateOfSubset (n.subsets none) (n.after w)) := by
  obtain ⟨i, hrun, hi⟩ := exists_run_after (mem_alphabet_of_run h)
  rw [h.unique hrun]
  exact hi

theorem accepts?_ofNfa (hw : ∀ c ∈ w, c ∈ n.alphabet) :
    (ofNfa n).accepts? w = some (decide (n.Accepting (n.after w))) := by
  obtain ⟨i, hrun, hi⟩ := exists_run_after hw
  exact accepts?_of_run hw hrun hi

/-- The deterministic automaton accepts the words over the alphabet that the
nondeterministic one accepts. -/
theorem accepts?_ofNfa_iff :
    (ofNfa n).accepts? w = some true ↔ (∀ c ∈ w, c ∈ n.alphabet) ∧ n.Accepts w := by
  by_cases hw : ∀ c ∈ w, c ∈ n.alphabet
  · rw [accepts?_ofNfa hw, ← Nfa.accepting_after_iff]
    exact ⟨fun h => ⟨hw, of_decide_eq_true (Option.some.inj h)⟩,
      fun h => congrArg some (decide_eq_true h.2)⟩
  · obtain ⟨c, hc, hout⟩ : ∃ c ∈ w, c ∉ n.alphabet := by simpa using hw
    rw [accepts?_of_not_mem hc hout]
    simp [hw]

/-- It always has an answer. -/
theorem exists_accepts?_ofNfa : ∃ b, (ofNfa n).accepts? w = some b := by
  by_cases hw : ∀ c ∈ w, c ∈ n.alphabet
  · exact ⟨_, accepts?_ofNfa hw⟩
  · obtain ⟨c, hc, hout⟩ : ∃ c ∈ w, c ∉ n.alphabet := by simpa using hw
    exact ⟨_, accepts?_of_not_mem hc hout⟩

/-- Two automata with one alphabet of which one accepts `u` where the other
accepts `v`, over the same letters, answer alike when they are made
deterministic. -/
theorem accepts?_ofNfa_congr {m : Nfa} {u v : Word} (halphabet : m.alphabet = n.alphabet)
    (hletters : ∀ c, c ∈ u ↔ c ∈ v) (h : m.Accepts u ↔ n.Accepts v) :
    ∃ b, (ofNfa m).accepts? u = some b ∧ (ofNfa n).accepts? v = some b := by
  obtain ⟨b, hb⟩ := exists_accepts?_ofNfa (n := m) (w := u)
  obtain ⟨b', hb'⟩ := exists_accepts?_ofNfa (n := n) (w := v)
  have heq : (ofNfa m).accepts? u = some true ↔ (ofNfa n).accepts? v = some true := by
    simp only [accepts?_ofNfa_iff, halphabet, hletters, h]
  refine ⟨b, hb, ?_⟩
  rw [hb, hb', Option.some.injEq, Option.some.injEq] at heq
  rw [hb', Bool.eq_iff_iff.mpr heq]

/-! ## Limits -/

section

variable {options : Options} {k : Nat}

theorem ofNfaWith_of_none (hmax : options.maxDfaStates = none) :
    ofNfaWith n options = .ok (ofNfa n) := by
  rw [ofNfaWith, hmax]

/-- An automaton that keeps to the limit is not changed by it: nothing was cut off. -/
theorem ofNfaWith_of_size_le (hmax : options.maxDfaStates = some k) (h : (ofNfa n).size ≤ k) :
    ofNfaWith n options = .ok (ofNfa n) := by
  rw [size_ofNfa] at h
  have heq := Nfa.subsets_limit_eq h
  rw [ofNfaWith, hmax]
  simp only [heq, if_neg (Nat.not_lt.mpr h), ofNfa]

/-- An automaton that has more states is cut off above the limit, not before. -/
theorem ofNfaWith_of_lt_size (hmax : options.maxDfaStates = some k) (h : k < (ofNfa n).size) :
    ofNfaWith n options = .error (.tooManyStates k) := by
  rw [size_ofNfa] at h
  rw [ofNfaWith, hmax]
  simp only [if_pos (Nfa.lt_size_subsets_limit h)]

/-- A limit does not show in an automaton that keeps to it. -/
theorem eq_ofNfa_of_ofNfaWith {d : Dfa} (h : ofNfaWith n options = .ok d) : d = ofNfa n := by
  cases hmax : options.maxDfaStates with
  | none =>
    rw [ofNfaWith_of_none hmax] at h
    exact (Except.ok.inj h).symm
  | some k =>
    rcases Nat.lt_or_ge k (ofNfa n).size with hsize | hsize
    · rw [ofNfaWith_of_lt_size hmax hsize] at h
      cases h
    · rw [ofNfaWith_of_size_le hmax hsize] at h
      exact (Except.ok.inj h).symm

end

/-! ## State by state -/

/-- **Subset construction is exact.** A word over the alphabet has a run, which
ends in the state of exactly those states that paths reading the word lead to,
and the word is accepted if and only if one of them is final. Every other word is
rejected, whatever paths read it. -/
theorem subset_of_run_ofNfa (n : Nfa) (w : Word) :
    ((∀ c ∈ w, c ∈ n.alphabet) → ∃ i s accepted, (ofNfa n).Run 0 w i ∧
      (ofNfa n).state? i = some s ∧ (∀ q, q ∈ s.subset ↔ n.Path n.initial w q) ∧
      (ofNfa n).accepts? w = some accepted ∧ (accepted = true ↔ ∃ q ∈ s.subset, q ∈ n.finals)) ∧
    ((∃ c ∈ w, c ∉ n.alphabet) → (ofNfa n).accepts? w = some false) := by
  refine ⟨fun hw => ?_, fun ⟨c, hc, hout⟩ => accepts?_of_not_mem hc hout⟩
  obtain ⟨i, hrun, hi⟩ := exists_run_after hw
  refine ⟨i, _, _, hrun, hi, fun q => Nfa.mem_after_iff, accepts?_ofNfa hw, ?_⟩
  exact decide_eq_true_iff

/-- An automaton that reads `a`, which is in its alphabet, and `b`, which is not. -/
def straying : Nfa :=
  .ofTransitions [.nonterminal 'S', .accept] {'a'} 0 {1}
    [⟨0, .symbol 'a', 1⟩, ⟨0, .symbol 'b', 1⟩, ⟨1, .epsilon, 0⟩]
    (by decide) (by decide) (by decide)

/-- The path that reads `b` ends in a final state, and still `b` is rejected. -/
theorem subset_of_run_straying :
    ((∀ c ∈ ['a', 'a'], c ∈ straying.alphabet) ∧ ∃ i s accepted,
      (ofNfa straying).Run 0 ['a', 'a'] i ∧ (ofNfa straying).state? i = some s ∧
      (∀ q, q ∈ s.subset ↔ straying.Path straying.initial ['a', 'a'] q) ∧
      (ofNfa straying).accepts? ['a', 'a'] = some accepted ∧
      (accepted = true ↔ ∃ q ∈ s.subset, q ∈ straying.finals)) ∧
    ('b' ∉ straying.alphabet ∧ straying.Accepts ['b']) ∧
      (ofNfa straying).accepts? ['b'] = some false := by
  have ha : ∀ c ∈ ['a', 'a'], c ∈ straying.alphabet := by
    intro c hc
    obtain rfl : c = 'a' := by simpa using hc
    decide
  have hb : ⟨0, .symbol 'b', 1⟩ ∈ straying.transitions := by decide
  have hstray : 'b' ∉ straying.alphabet := by decide
  refine ⟨⟨ha, (subset_of_run_ofNfa straying ['a', 'a']).1 ha⟩,
    ⟨hstray, 1, by decide, .symbol hb (.nil 1)⟩, ?_⟩
  exact (subset_of_run_ofNfa straying ['b']).2 ⟨'b', List.mem_singleton.mpr rfl, hstray⟩

end Dfa

end GrammarAutomata
