import GrammarAutomata.Grammar.Classification
import GrammarAutomata.Grammar.Defect

/-!
# Conversions

What a caller can choose about the conversion of a grammar into an automaton, and
why it may fail. Each error is its cause; the wording stands in `Error.message`.
-/

namespace GrammarAutomata

/-! ## Choices -/

/-- What becomes of a production whose body is a single nonterminal. -/
inductive UnitProductions where
  /-- a transition that reads nothing -/
  | epsilon
  /-- an error -/
  | reject
  deriving DecidableEq, Repr

/-- The choices for a conversion. -/
structure Options where
  /-- what becomes of unit productions -/
  unitProductions : UnitProductions := .epsilon
  /-- how many states a deterministic automaton may have; `none` is no limit -/
  maxDfaStates : Option Nat := none
  deriving DecidableEq, Repr

/-! ## Errors -/

/-- Why a production cannot become a path of an automaton. -/
inductive ArcError where
  /-- there is nothing to read and nowhere to go -/
  | emptyBody
  /-- the nonterminal `c` stands where only a terminal may -/
  | misplacedNonterminal (c : Char)
  /-- the body is the nonterminal `c` alone, and such productions are rejected -/
  | unitProduction (c : Char)
  deriving DecidableEq, Repr

/-- The wording of the reason. -/
def ArcError.message : ArcError → String
  | .emptyBody => "the body is empty"
  | .misplacedNonterminal c =>
    "nonterminal '" ++ c.toString ++ "' occurs in a position not allowed in a linear grammar"
  | .unitProduction c =>
    "unit productions are not allowed (body is the single nonterminal '" ++ c.toString ++ "')"

/-- Why a conversion fails. -/
inductive Error where
  /-- the draft is not a grammar -/
  | invalidDraft (defect : Defect)
  /-- production number `index` cannot become a path -/
  | malformedProduction (index : Nat) (production : Production) (reason : ArcError)
  /-- grammars of that class have no finite automaton here -/
  | unsupportedClass (grammarClass : GrammarClass)
  /-- the deterministic automaton has more states than the limit allows -/
  | tooManyStates (limit : Nat)
  deriving DecidableEq, Repr

/-- The wording of an error. -/
def Error.message : Error → String
  | .invalidDraft defect => "invalid grammar: " ++ defect.message
  | .malformedProduction index production reason =>
    "malformed production #" ++ index.repr ++ " (" ++ production.text ++ "): " ++ reason.message
  | .unsupportedClass grammarClass =>
    "unsupported grammar: " ++ grammarClass.text ++
      " grammars cannot be converted into a finite automaton"
  | .tooManyStates limit =>
    "subset construction exceeded the limit of " ++ limit.repr ++ " states"

end GrammarAutomata
