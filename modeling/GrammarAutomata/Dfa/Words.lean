import GrammarAutomata.Dfa.Basic

/-!
# The words of a deterministic automaton, up to a length

All runs of bounded length are followed, whether or not their symbols are in the
alphabet: first the empty one, then those that read one symbol, and so on. The
first run that comes to a state that does not exist spoils the enumeration, and
no longer run is looked at.
-/

namespace GrammarAutomata

/-- Where a word has led. -/
structure Reading where
  /-- the state -/
  state : Nat
  /-- the word, its last symbol first -/
  reversed : Word

/-- Where a word has led, if the state exists. -/
structure Arrival where
  /-- the state -/
  state : DfaState
  /-- the word, its last symbol first -/
  reversed : Word

/-- All words that are one symbol longer. -/
def Arrival.further (a : Arrival) : List Reading :=
  a.state.row.entries.map fun e => ⟨e.2, e.1 :: a.reversed⟩

/-- The words among some that may end where they have led. -/
def acceptedWords (arrivals : List Arrival) : List Word :=
  (arrivals.filter (·.state.accepting)).map (·.reversed.reverse)

namespace Dfa

variable (d : Dfa)

/-- The state to which a word has led, if it exists. -/
def arrive? (r : Reading) : Option Arrival := (d.state? r.state).map (⟨·, r.reversed⟩)

/-- Follow some words, all of one length, by at most `n` more symbols. The words
found so far are `found`; there is no answer as soon as a word leads to a state
that does not exist. -/
def wordsFrom? (found : List Word) (n : Nat) (front : List Reading) : Option (List Word) :=
  if front.any fun r => (d.arrive? r).isNone then none
  else
    let arrivals := front.filterMap d.arrive?
    let found := acceptedWords arrivals ++ found
    match n, arrivals with
    | 0, _ => some found
    | _ + 1, [] => some found
    | n + 1, a :: arrivals => wordsFrom? found n ((a :: arrivals).flatMap Arrival.further)

/-- The words of at most `n` symbols whose run ends in an accepting state, or
`none` if a run of at most `n` symbols leads to a state that does not exist. -/
def words? (n : Nat) : Option (SortedSet Word) := (d.wordsFrom? [] n [⟨0, []⟩]).map .ofList

end Dfa

end GrammarAutomata
