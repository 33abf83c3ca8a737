import GrammarAutomata.Proofs.Closures

/-!
# Steps through a word

Step by step a set of states is carried through a word. A step looks the targets of its
states up one by one and gathers what is silent behind them (`Nfa.advance?`), which is never
in vain and gives the step (`Nfa.advance?_eq`). Behind a step nothing silent is missing, but
what is silent before the first one is not taken: from any set, closed or not, the steps lead
where those paths lead that begin with the first symbol (`Nfa.mem_foldl_step_iff`). Where a
step leads from a state does not depend on the other states, so steps through a word can be
taken from the parts of a set (`Nfa.foldl_step_union`).
-/

namespace GrammarAutomata.Nfa

variable {n : Nfa} {states states' : SortedSet Nat} {c : Char} {w : Word}

/-! ## Looking targets up -/

/-- The states that reading `c` leads to, looked up state by state and gathered. -/
def advance? (n : Nfa) (states : SortedSet Nat) (c : Char) : Option (SortedSet Nat) := do
  let targets ← states.toList.mapM fun q => n.targetsOf? q (.symbol c)
  n.gather? (targets.flatMap (·.toList))

theorem advance?_eq (h : ∀ q ∈ states, q < n.size) :
    n.advance? states c = some (n.step states c) := by
  rw [advance?, mapM_targetsOf?_eq h, Option.bind_eq_bind, Option.bind_some, List.flatMap_map]
  exact gather?_eq flatMap_targets_lt

/-- All states that are met in a word exist. -/
theorem foldlM_advance?_eq (h : ∀ q ∈ states, q < n.size) (w : Word) :
    w.foldlM n.advance? states = some (w.foldl n.step states) := by
  induction w generalizing states with
  | nil => rfl
  | cons c w ih =>
    rw [List.foldlM_cons, advance?_eq h]
    exact ih step_lt

/-! ## What steps keep -/

/-- Steps lead from a closed set to a closed set. -/
theorem closed_foldl_step (h : n.Closed states) : n.Closed (w.foldl n.step states) := by
  induction w generalizing states with
  | nil => exact h
  | cons c w ih => exact ih closed_step

theorem step_union (n : Nfa) (states states' : SortedSet Nat) (c : Char) :
    n.step (states ∪ states') c = n.step states c ∪ n.step states' c :=
  SortedSet.ext fun q => by
    simp only [mem_step_iff, SortedSet.mem_union, or_and_right, exists_or]

/-- From a union the steps lead to the union of what they lead to from its parts. -/
theorem foldl_step_union (n : Nfa) (states states' : SortedSet Nat) (w : Word) :
    w.foldl n.step (states ∪ states') = w.foldl n.step states ∪ w.foldl n.step states' := by
  induction w generalizing states states' with
  | nil => rfl
  | cons c w ih => rw [List.foldl_cons, step_union, ih, List.foldl_cons, List.foldl_cons]

/-! ## Steps and paths -/

/-- **Steps through a word follow the paths that read it.** No look-up on the way fails. From
any set of states the steps lead to the ends of the paths that begin in the set with a
transition that reads the first symbol and read the rest behind it, silently or not; what is
silent behind these ends is among them, and a union leads to the union. From what is silent
behind the initial state they lead to the ends of all paths that read the word. -/
theorem steps_follow_paths (n : Nfa) :
    (∀ states : SortedSet Nat, (∀ q ∈ states, q < n.size) → ∀ w : Word,
      w.foldlM n.advance? states = some (w.foldl n.step states)) ∧
    (∀ (states : SortedSet Nat) (c : Char) (w : Word),
      (∀ r, r ∈ (c :: w).foldl n.step states ↔
        ∃ p ∈ states, ∃ q, ⟨p, .symbol c, q⟩ ∈ n.transitions ∧ n.Path q w r) ∧
      n.Closed ((c :: w).foldl n.step states)) ∧
    (∀ (states states' : SortedSet Nat) (w : Word),
      w.foldl n.step (states ∪ states') = w.foldl n.step states ∪ w.foldl n.step states') ∧
    ∀ (w : Word) (r : Nat),
      r ∈ w.foldl n.step (n.epsilonClosure n.initial) ↔ n.Path n.initial w r := by
  refine ⟨?_, ?_, ?_, ?_⟩
  · intro states h w
    exact foldlM_advance?_eq h w
  · intro states c w
    refine ⟨fun r => mem_foldl_step_iff, ?_⟩
    -- closed or not before the first step, the set is closed behind it
    rw [List.foldl_cons]
    exact closed_foldl_step closed_step
  · exact n.foldl_step_union
  · intro w r
    exact mem_after_iff

/-- In the automaton with a cycle, from a set that is not closed: what is silent before the
first symbol is not taken. -/
theorem steps_follow_paths_cyclic :
    (∀ q ∈ SortedSet.ofList [0, 2], q < cyclic.size) ∧
    ['a'].foldlM cyclic.advance? (.ofList [0, 2]) = some {3} ∧
    ['a'].foldlM cyclic.advance? (.ofList [0, 1]) = some ∅ ∧
    ¬ ∃ p ∈ SortedSet.ofList [0, 1], ∃ q, ⟨p, .symbol 'a', q⟩ ∈ cyclic.transitions ∧
      cyclic.Path q [] 3 := by
  obtain ⟨hlookup, hpaths, _⟩ := steps_follow_paths cyclic
  have hlt : ∀ q ∈ SortedSet.ofList [0, 2], q < cyclic.size := by decide +kernel
  have hlt' : ∀ q ∈ SortedSet.ofList [0, 1], q < cyclic.size := by decide +kernel
  have hstep : ['a'].foldl cyclic.step (.ofList [0, 2]) = {3} := by decide +kernel
  have hstep' : ['a'].foldl cyclic.step (.ofList [0, 1]) = ∅ := by decide +kernel
  refine ⟨hlt, ?_, ?_, fun h => ?_⟩
  · rw [hlookup _ hlt, hstep]
  · rw [hlookup _ hlt', hstep']
  · have hmem := ((hpaths (.ofList [0, 1]) 'a' []).1 3).mpr h
    rw [hstep'] at hmem
    exact SortedSet.not_mem_empty 3 hmem

end GrammarAutomata.Nfa
