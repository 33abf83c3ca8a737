import GrammarAutomata.Nfa.Closure
import GrammarAutomata.Nfa.Path

/-!
# Simulation

Sets of states say what paths say. A closure holds what silent paths lead to
(`Nfa.mem_closure_iff`), a step takes one symbol and what is silent behind it
(`Nfa.mem_step_iff`), and so the states after a word are the ends of the paths
that read it (`Nfa.mem_foldl_step_iff`, `Nfa.mem_after_iff`).
-/

namespace GrammarAutomata.Nfa

variable {n : Nfa}

/-! ## Paths -/

/-- The first symbol of a word is read by one transition. Before it the path
reads nothing, behind it the rest. -/
theorem path_cons_iff {p r : Nat} {c : Char} {w : Word} :
    n.Path p (c :: w) r ↔ ∃ q, n.Path p [] q ∧
      ∃ q', ⟨q, .symbol c, q'⟩ ∈ n.transitions ∧ n.Path q' w r := by
  refine ⟨?_, ?_⟩
  · intro h
    generalize hv : c :: w = v at h
    induction h with
    | nil => cases hv
    | epsilon ht _ ih =>
      obtain ⟨q, hsilent, hrest⟩ := ih hv
      exact ⟨q, .epsilon ht hsilent, hrest⟩
    | symbol ht h _ =>
      cases hv
      exact ⟨_, .nil _, _, ht, h⟩
  · rintro ⟨q, hsilent, q', ht, h⟩
    exact hsilent.append (.symbol ht h)

/-! ## Sets of states -/

/-- What is silent behind the states belongs to them. -/
def Closed (n : Nfa) (states : SortedSet Nat) : Prop :=
  ∀ p ∈ states, ∀ q, ⟨p, .epsilon, q⟩ ∈ n.transitions → q ∈ states

theorem closed_closure {sources : List Nat} : n.Closed (n.closure sources) :=
  fun _ hp _ hq => mem_closure_of_target hp hq

/-- No silent path leaves a closed set. -/
theorem Closed.mem_of_path {states : SortedSet Nat} {p q : Nat} (hclosed : n.Closed states)
    (h : n.Path p [] q) (hp : p ∈ states) : q ∈ states := by
  generalize hw : ([] : Word) = w at h
  induction h with
  | nil => exact hp
  | epsilon ht _ ih => exact ih (hclosed _ hp _ ht) hw
  | symbol => cases hw

/-- A closure is what silent paths lead to from the sources. -/
theorem mem_closure_iff {sources : List Nat} {q : Nat} :
    q ∈ n.closure sources ↔ ∃ p ∈ sources, n.Path p [] q := by
  refine ⟨?_, ?_⟩
  · refine fun hq => closure_induction (P := fun q => ∃ p ∈ sources, n.Path p [] q) ?_ ?_ q hq
    · exact fun q hq => ⟨q, hq, .nil q⟩
    · rintro q r ⟨p, hp, h⟩ hr
      exact ⟨p, hp, h.append (.of_epsilon hr)⟩
  · rintro ⟨p, hp, h⟩
    exact closed_closure.mem_of_path h (mem_closure_of_mem hp)

theorem closed_step {states : SortedSet Nat} {c : Char} : n.Closed (n.step states c) :=
  closed_closure

/-- A step reads its symbol at once and then nothing. -/
theorem mem_step_iff {states : SortedSet Nat} {c : Char} {r : Nat} :
    r ∈ n.step states c ↔ ∃ p ∈ states, ∃ q, ⟨p, .symbol c, q⟩ ∈ n.transitions ∧
      n.Path q [] r := by
  rw [step, mem_closure_iff]
  simp only [List.mem_flatMap, SortedSet.mem_toList, mem_targets]
  refine ⟨?_, ?_⟩
  · rintro ⟨q, ⟨p, hp, ht⟩, h⟩
    exact ⟨p, hp, q, ht, h⟩
  · rintro ⟨p, hp, q, ht, h⟩
    exact ⟨q, ⟨p, hp, ht⟩, h⟩

/-- Steps through a word that is not empty lead where those paths lead whose
first transition reads its first symbol. -/
theorem mem_foldl_step_iff {states : SortedSet Nat} {c : Char} {w : Word} {r : Nat} :
    r ∈ (c :: w).foldl n.step states ↔ ∃ p ∈ states, ∃ q, ⟨p, .symbol c, q⟩ ∈ n.transitions ∧
      n.Path q w r := by
  induction w generalizing states c with
  | nil => exact mem_step_iff
  | cons d w ih =>
    rw [List.foldl_cons, ih]
    refine ⟨?_, ?_⟩
    -- what is silent behind `c` is the silent beginning of the path that reads `d` next
    · rintro ⟨p', hp', q', ht', h⟩
      obtain ⟨p, hp, q, ht, hsilent⟩ := mem_step_iff.mp hp'
      exact ⟨p, hp, q, ht, path_cons_iff.mpr ⟨p', hsilent, q', ht', h⟩⟩
    · rintro ⟨p, hp, q, ht, h⟩
      obtain ⟨p', hsilent, q', ht', h⟩ := path_cons_iff.mp h
      exact ⟨p', mem_step_iff.mpr ⟨p, hp, q, ht, hsilent⟩, q', ht', h⟩

/-- The closure of one state is what silent paths lead to from it. -/
theorem mem_epsilonClosure_iff {p q : Nat} : q ∈ n.epsilonClosure p ↔ n.Path p [] q := by
  rw [epsilonClosure, mem_closure_iff]
  simp

theorem mem_start_iff {q : Nat} : q ∈ n.start ↔ n.Path n.initial [] q := mem_epsilonClosure_iff

/-- The automaton can be in a state after a word if and only if a path from the
initial state to it reads the word. -/
theorem mem_after_iff {w : Word} {q : Nat} : q ∈ n.after w ↔ n.Path n.initial w q := by
  cases w with
  | nil => exact mem_start_iff
  | cons c w =>
    rw [after, mem_foldl_step_iff, path_cons_iff]
    simp only [mem_start_iff]

/-- The states after a word tell whether the word is accepted. -/
theorem accepting_after_iff {w : Word} : n.Accepting (n.after w) ↔ n.Accepts w := by
  simp only [Accepting, Accepts, SortedSet.mem_toList, mem_after_iff]
  exact exists_congr fun q => and_comm

end GrammarAutomata.Nfa
