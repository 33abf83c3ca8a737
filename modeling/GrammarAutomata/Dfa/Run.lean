import GrammarAutomata.Dfa.Basic

/-!
# Runs

What a deterministic automaton does with a word, said as a relation: a run goes
from state to state as the rows say and reads one symbol at each step. It may end
in a state that does not exist, but it cannot go on from there.
-/

namespace GrammarAutomata.Dfa

/-- Reading `w` leads from state `p` to state `r`. -/
inductive Run (d : Dfa) : Nat → Word → Nat → Prop
  | nil (q : Nat) : Run d q [] q
  | cons {p q r : Nat} {c : Char} {w : Word} {s : DfaState} : d.state? p = some s →
    s.row.get? c = some q → Run d q w r → Run d p (c :: w) r

namespace Run

variable {d : Dfa} {p q r : Nat} {u v : Word}

/-- Runs that meet form one run. -/
theorem append (h : d.Run p u q) (h' : d.Run q v r) : d.Run p (u ++ v) r := by
  induction h with
  | nil => exact h'
  | cons hs hc _ ih => exact .cons hs hc (ih h')

/-- A word has at most one run from a state. -/
theorem unique (h : d.Run p u q) (h' : d.Run p u r) : q = r := by
  induction h with
  | nil => cases h'; rfl
  | cons hs hc _ ih =>
    cases h' with
    | cons hs' hc' h' =>
      obtain rfl := Option.some.inj (hs.symm.trans hs')
      obtain rfl := Option.some.inj (hc.symm.trans hc')
      exact ih h'

end Run

end GrammarAutomata.Dfa
