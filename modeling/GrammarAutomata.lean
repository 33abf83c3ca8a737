import GrammarAutomata.Dfa.Drawing
import GrammarAutomata.Dfa.OfGrammar
import GrammarAutomata.Dfa.Reachable
import GrammarAutomata.Dfa.Run
import GrammarAutomata.Dfa.Words
import GrammarAutomata.Grammar.Derivation
import GrammarAutomata.Grammar.Words
import GrammarAutomata.Nfa.Drawing
import GrammarAutomata.Nfa.Path
import GrammarAutomata.Proofs.Compilation
import GrammarAutomata.Proofs.ReversedWords
import GrammarAutomata.Proofs.LinearBodies
import GrammarAutomata.Proofs.Refusals
import GrammarAutomata.Proofs.Reachability
import GrammarAutomata.Proofs.Determinization
import GrammarAutomata.Proofs.NonterminalPaths
import GrammarAutomata.Proofs.Names
import GrammarAutomata.Proofs.Lockstep
import GrammarAutomata.Proofs.Twins
import GrammarAutomata.Proofs.Items
import GrammarAutomata.Proofs.Renaming
import GrammarAutomata.Proofs.RenamedAutomata
import GrammarAutomata.Proofs.Lookups
import GrammarAutomata.Proofs.Building
import GrammarAutomata.Proofs.Queue
import GrammarAutomata.Proofs.Pipeline
import GrammarAutomata.Proofs.WordsAndAcceptance
import GrammarAutomata.Proofs.DiscoveryOrder
import GrammarAutomata.Proofs.AccessWords
import GrammarAutomata.Proofs.EdgeLabels
import GrammarAutomata.Proofs.TransitionCounts
import GrammarAutomata.Proofs.Shape
import GrammarAutomata.Proofs.Closures
import GrammarAutomata.Proofs.Edits
import GrammarAutomata.Proofs.WordSteps
import GrammarAutomata.Proofs.Listings
import GrammarAutomata.Proofs.TurnedAround
import GrammarAutomata.Proofs.Classes
import GrammarAutomata.Proofs.MergedEdges
import GrammarAutomata.Proofs.FirstDefect
import GrammarAutomata.Proofs.DrawnAlike
import GrammarAutomata.Proofs.QuotedNames
