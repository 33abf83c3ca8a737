import GrammarAutomata.Dfa.Row
import GrammarAutomata.Word

/-!
# Deterministic automata

States are numbered by their place in a row, and reading begins in state 0. A
row may lack symbols, and it may name a state that does not exist: looking at
such a state is what the question marks below are about, `none` says that it
happened.
-/

namespace GrammarAutomata

/-- A state of a deterministic automaton. -/
structure DfaState where
  /-- what the state is called -/
  name : String
  /-- the states of another automaton that it stands for -/
  subset : SortedSet Nat
  /-- whether reading may end here -/
  accepting : Bool
  /-- where symbols lead -/
  row : Row
  deriving DecidableEq

/-- A finite automaton that has at most one way to read a word. -/
structure Dfa where
  /-- the states; state `q` is the one at position `q` -/
  states : Array DfaState
  /-- the input symbols; rows may have others -/
  alphabet : SortedSet Char
  /-- there is a state in which reading begins -/
  size_pos : 0 < states.size
  deriving DecidableEq

namespace Dfa

variable (d : Dfa)

/-- The number of states. -/
def size : Nat := d.states.size

/-- State number `q`. -/
def state? (q : Nat) : Option DfaState := d.states[q]?

/-- The state in which reading begins. -/
def initialState : DfaState :=
  have := d.size_pos
  d.states[0]

/-- The numbers of the accepting states, ascending. -/
def finals : List Nat := (d.states.toList.zipIdx.filter (·.1.accepting)).map (·.2)

/-- The first state of that name. -/
def stateByName? (name : String) : Option Nat := d.states.toList.findIdx? (·.name == name)

/-- Whether reading `w` from state `q` ends in an accepting state. A symbol that
a row lacks ends it elsewhere. -/
def acceptsFrom? (q : Nat) : Word → Option Bool
  | [] => (d.state? q).map (·.accepting)
  | c :: w => (d.state? q).bind fun s =>
    match s.row.get? c with
    | none => some false
    | some r => acceptsFrom? r w

/-- Whether `w` is accepted. A word with a symbol that is not in the alphabet is
rejected without being read. -/
def accepts? (w : Word) : Option Bool :=
  if w.all (· ∈ d.alphabet) then d.acceptsFrom? 0 w else some false

end Dfa

end GrammarAutomata
