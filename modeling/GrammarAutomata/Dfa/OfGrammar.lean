import GrammarAutomata.Dfa.OfNfa
import GrammarAutomata.Nfa.OfGrammar

/-!
# From a grammar to a deterministic automaton

The two conversions one after the other.
-/

namespace GrammarAutomata

/-- The deterministic automaton of a linear grammar. It accepts the words that
the grammar generates. -/
def Dfa.ofGrammar (g : Grammar) (options : Options) : Except Error Dfa := do
  let n ← Nfa.ofGrammar g options
  Dfa.ofNfaWith n options

end GrammarAutomata
