import GrammarAutomata.Proofs.ConstructionLoop
import GrammarAutomata.Proofs.Reachability

/-!
# What determinization makes

All that holds of an automaton made by the subset construction can be read off the
sets that its states stand for, and off the numbers of these: `Dfa.Represents` lists
it. A limit on the states decides only whether the automaton is made, however often it
is looked at on the way.
-/

namespace GrammarAutomata

namespace Nfa

variable {n : Nfa} {set : SortedSet Nat}

/-! ## The sets -/

/-- A set that is found holds states that exist. -/
theorem lt_size_of_mem_subsets (h : set ∈ n.subsets none) : ∀ q ∈ set, q < n.size :=
  Space.contains_explore _ set h

/-- A set that is found is closed: it is that of a step, or the first. -/
theorem closed_of_mem_subsets (h : set ∈ n.subsets none) : n.Closed set := by
  refine Space.explore_induction _ (fun set hset => ?_) (fun set next _ hnext => ?_) set h
  · obtain rfl := List.mem_singleton.mp hset
    exact closed_closure
  · obtain ⟨c, _, rfl⟩ := List.mem_map.mp hnext
    exact closed_step

end Nfa

namespace Dfa

variable {n : Nfa} {set : SortedSet Nat} {i : Nat}

/-! ## Reachable states -/

theorem lt_size_of_state? {d : Dfa} {s : DfaState} (h : d.state? i = some s) : i < d.size :=
  (Array.getElem?_eq_some_iff.mp h).1

/-- Every set that is found is that of the state in which some run ends. -/
theorem exists_run_of_mem_subsets (h : set ∈ n.subsets none) :
    ∃ w i, (n.subsets none).get? i = some set ∧ (ofNfa n).Run 0 w i := by
  refine Space.explore_induction (P := fun set => ∃ w i, (n.subsets none).get? i = some set ∧
    (ofNfa n).Run 0 w i) _ (fun set hset => ?_) (fun set next ⟨w, i, hi, hrun⟩ hnext => ?_) set h
  · obtain rfl := List.mem_singleton.mp hset
    exact ⟨[], 0, Nfa.get?_subsets_zero, .nil 0⟩
  · -- one more symbol leads the run on to the set of the step
    obtain ⟨c, hc, rfl⟩ := List.mem_map.mp hnext
    exact ⟨w ++ [c], _, Nfa.get?_placeOf_step hi hc, hrun.append
      (.cons (state?_ofNfa hi) (get?_row_ofNfa.trans (if_pos hc)) (.nil _))⟩

theorem exists_run_iff_lt_size : (∃ w, (ofNfa n).Run 0 w i) ↔ i < (ofNfa n).size := by
  refine ⟨fun ⟨w, hrun⟩ => lt_size_of_state? (state?_of_run hrun), fun hi => ?_⟩
  rw [size_ofNfa] at hi
  obtain ⟨set, hset⟩ := Numbering.exists_get?_of_lt hi
  obtain ⟨w, j, hj, hrun⟩ := exists_run_of_mem_subsets (Numbering.mem_of_get? hset)
  exact ⟨w, Numbering.eq_of_get? hj hset ▸ hrun⟩

theorem reachable?_ofNfa (n : Nfa) : ∃ states, (ofNfa n).reachable? = some states ∧
    ∀ i, i ∈ states ↔ i < (ofNfa n).size := by
  obtain ⟨states, hstates, hmem⟩ := exists_reachable? (d := ofNfa n) fun w q hrun =>
    exists_run_iff_lt_size.mp ⟨w, hrun⟩
  exact ⟨states, hstates, fun i => (hmem i).trans exists_run_iff_lt_size⟩

/-! ## What the states stand for -/

/-- The states of `d` stand for the sets of states in which `n` can be after a word over
its alphabet: each for one, and no two for the same. -/
structure Represents (n : Nfa) (d : Dfa) : Prop where
  /-- both read the same symbols -/
  alphabet : d.alphabet = n.alphabet
  /-- there is a state -/
  size_pos : 1 ≤ d.size
  /-- there are no more states than sets -/
  size_le : d.size ≤ Nat.pow 2 n.size
  /-- reading begins in what is silent behind the initial state -/
  initial : ∃ s, d.state? 0 = some s ∧ s.subset = n.epsilonClosure n.initial
  /-- a symbol of the alphabet leads to a state, that of the step between the sets -/
  next : ∀ i s c, d.state? i = some s → c ∈ n.alphabet → ∃ j t, s.row.get? c = some j ∧
    j < d.size ∧ d.state? j = some t ∧ t.subset = n.step s.subset c
  /-- other symbols lead nowhere -/
  next_none : ∀ i s c, d.state? i = some s → c ∉ n.alphabet → s.row.get? c = none
  /-- different states stand for different sets -/
  subset_inj : ∀ i j s t, d.state? i = some s → d.state? j = some t →
    s.subset = t.subset → i = j
  /-- what is silent behind a set belongs to it -/
  subset_closed : ∀ i s, d.state? i = some s → n.Closed s.subset
  /-- sets hold states that exist -/
  subset_lt : ∀ i s, d.state? i = some s → ∀ q ∈ s.subset, q < n.size
  /-- reading may end where one of the set is final -/
  accepting : ∀ i s, d.state? i = some s → (s.accepting = true ↔ ∃ q ∈ s.subset, q ∈ n.finals)
  /-- every state is reachable, and nothing else -/
  reachable : ∃ states, d.reachable? = some states ∧ ∀ i, i ∈ states ↔ i < d.size

/-- **What determinization makes.** The loop that numbers the sets and finishes one
state in each round always ends, with the states of the automaton; and these stand for
the sets that reading leads to. -/
theorem ofNfa_represents (n : Nfa) :
    (∀ outcome, n.Determinizes none outcome ↔ outcome = .ok (ofNfa n).states) ∧
      Represents n (ofNfa n) := by
  have hends (outcome) : n.Determinizes ({} : Options).maxDfaStates outcome ↔
      outcome = .ok (ofNfa n).states := determinizes_iff
  refine ⟨hends, ?_⟩
  exact {
    alphabet := rfl
    size_pos := (ofNfa n).size_pos
    size_le := by
      rw [size_ofNfa]
      exact (Space.contains_explore _).size_le
    initial := ⟨_, state?_ofNfa Nfa.get?_subsets_zero, rfl⟩
    next := fun i s c hs hc => by
      obtain ⟨set, hset, rfl⟩ := exists_subset_of_state? hs
      have hj := state?_ofNfa (Nfa.get?_placeOf_step hset hc)
      exact ⟨_, _, get?_row_ofNfa.trans (if_pos hc), lt_size_of_state? hj, hj, rfl⟩
    next_none := fun i s c hs hc => by
      obtain ⟨set, _, rfl⟩ := exists_subset_of_state? hs
      exact get?_row_ofNfa.trans (if_neg hc)
    subset_inj := fun i j s t hs ht heq => by
      obtain ⟨set, hset, rfl⟩ := exists_subset_of_state? hs
      obtain ⟨set', hset', rfl⟩ := exists_subset_of_state? ht
      obtain rfl : set = set' := heq
      exact Numbering.eq_of_get? hset hset'
    subset_closed := fun i s hs => by
      obtain ⟨set, hset, rfl⟩ := exists_subset_of_state? hs
      exact Nfa.closed_of_mem_subsets (Numbering.mem_of_get? hset)
    subset_lt := fun i s hs => by
      obtain ⟨set, hset, rfl⟩ := exists_subset_of_state? hs
      exact Nfa.lt_size_of_mem_subsets (Numbering.mem_of_get? hset)
    accepting := fun i s hs => by
      obtain ⟨set, _, rfl⟩ := exists_subset_of_state? hs
      exact decide_eq_true_iff
    reachable := reachable?_ofNfa n }

/-! ## Limits -/

/-- **A limit decides whether there is an automaton, and never which one.** There is
none if the automaton without the limit has more states, and otherwise it is that
automaton; the loop ends with the same outcome, although it looks at the limit before
each new set. -/
theorem ofNfaWith_limit (n : Nfa) (options : Options) :
    (∀ k, ofNfaWith n { options with maxDfaStates := some k } =
      if (ofNfa n).size ≤ k then .ok (ofNfa n) else .error (.tooManyStates k)) ∧
    ofNfaWith n { options with maxDfaStates := none } = .ok (ofNfa n) ∧
    ∀ outcome, n.Determinizes options.maxDfaStates outcome ↔
      outcome = (ofNfaWith n options).map states := by
  refine ⟨fun k => ?_, ofNfaWith_of_none rfl, fun outcome => determinizes_iff⟩
  split
  · rename_i hle
    exact ofNfaWith_of_size_le rfl hle
  · rename_i hnot
    exact ofNfaWith_of_lt_size rfl (Nat.lt_of_not_le hnot)

end Dfa

end GrammarAutomata
