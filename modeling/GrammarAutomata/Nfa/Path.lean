import GrammarAutomata.Nfa.Basic
import GrammarAutomata.Word

/-!
# Paths

What an automaton accepts, said without any set of states: a path is a sequence
of transitions that fit together, and it spells the symbols that they read.
-/

namespace GrammarAutomata.Nfa

/-- Transitions of `n` lead from `p` to `r` and read `w`. -/
inductive Path (n : Nfa) : Nat → Word → Nat → Prop
  | nil (q : Nat) : Path n q [] q
  | epsilon {p q r : Nat} {w : Word} : ⟨p, .epsilon, q⟩ ∈ n.transitions → Path n q w r →
    Path n p w r
  | symbol {p q r : Nat} {c : Char} {w : Word} : ⟨p, .symbol c, q⟩ ∈ n.transitions →
    Path n q w r → Path n p (c :: w) r

/-- Some path from the initial state to a final state reads `w`. -/
def Accepts (n : Nfa) (w : Word) : Prop := ∃ q ∈ n.finals, n.Path n.initial w q

/-- With a single final state, accepted is what paths to it read. -/
theorem accepts_iff_of_finals {n : Nfa} {w : Word} {q : Nat} (h : n.finals = {q}) :
    n.Accepts w ↔ n.Path n.initial w q := by
  simp [Accepts, h]

namespace Path

variable {n : Nfa} {p q r : Nat} {u v : Word}

theorem of_epsilon (h : ⟨p, .epsilon, q⟩ ∈ n.transitions) : n.Path p [] q := .epsilon h (.nil q)

theorem of_symbol {c : Char} (h : ⟨p, .symbol c, q⟩ ∈ n.transitions) : n.Path p [c] q :=
  .symbol h (.nil q)

/-- Paths that meet form one path. -/
theorem append (h : n.Path p u q) (h' : n.Path q v r) : n.Path p (u ++ v) r := by
  induction h with
  | nil => exact h'
  | epsilon ht _ ih => exact .epsilon ht (ih h')
  | symbol ht _ ih => exact .symbol ht (ih h')

/-- A path from a state that exists ends in one. -/
theorem lt_size (h : n.Path p u q) (hp : p < n.size) : q < n.size := by
  induction h with
  | nil => exact hp
  | epsilon ht _ ih => exact ih (lt_size_of_mem_transitions ht)
  | symbol ht _ ih => exact ih (lt_size_of_mem_transitions ht)

end Path

end GrammarAutomata.Nfa
