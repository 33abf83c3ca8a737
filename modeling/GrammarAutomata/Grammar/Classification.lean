import GrammarAutomata.Grammar.Basic

/-!
# Classes of grammars

How far a grammar is linear decides whether it can be turned into a finite
automaton: in a right-linear one a nonterminal stands at most at the end of a
body, in a left-linear one at most at its beginning.
-/

namespace GrammarAutomata

/-- The classes of grammars that are told apart. -/
inductive GrammarClass where
  /-- both right-linear and left-linear -/
  | regular
  /-- right-linear only -/
  | rightLinear
  /-- left-linear only -/
  | leftLinear
  /-- not linear, but each production replaces one nonterminal -/
  | contextFree
  /-- none of the others -/
  | unrecognized
  deriving DecidableEq, Repr

namespace GrammarClass

/-- What the class is called. -/
def text : GrammarClass → String
  | .regular => "regular"
  | .rightLinear => "right-linear"
  | .leftLinear => "left-linear"
  | .contextFree => "context-free"
  | .unrecognized => "unrecognized"

/-- The grammars of the class are linear in one direction at least. -/
def IsRegular (c : GrammarClass) : Prop :=
  c = .regular ∨ c = .rightLinear ∨ c = .leftLinear

instance (c : GrammarClass) : Decidable c.IsRegular :=
  inferInstanceAs (Decidable (_ ∨ _))

end GrammarClass

namespace Grammar

variable (g : Grammar)

/-- Every production replaces a single nonterminal. -/
def IsContextFree : Prop := ∀ p ∈ g.productions, p.lhs ∈ g.nonterminals

/-- In each body all symbols before the last are terminals. -/
def IsRightLinear : Prop :=
  g.IsContextFree ∧ ∀ p ∈ g.productions, g.AllTerminal p.body.dropLast

/-- In each body all symbols after the first are terminals. -/
def IsLeftLinear : Prop :=
  g.IsContextFree ∧ ∀ p ∈ g.productions, g.AllTerminal p.body.tail

/-- The grammar is linear in one direction at least. -/
def IsRegular : Prop := g.IsRightLinear ∨ g.IsLeftLinear

instance : Decidable g.IsContextFree :=
  inferInstanceAs (Decidable (∀ p ∈ g.productions, p.lhs ∈ g.nonterminals))

instance : Decidable g.IsRightLinear := inferInstanceAs (Decidable (_ ∧ ∀ p ∈ g.productions, _))

instance : Decidable g.IsLeftLinear := inferInstanceAs (Decidable (_ ∧ ∀ p ∈ g.productions, _))

instance : Decidable g.IsRegular := inferInstanceAs (Decidable (_ ∨ _))

/-- The class of a grammar. -/
def classify : GrammarClass :=
  if g.IsRightLinear then
    if g.IsLeftLinear then .regular else .rightLinear
  else if g.IsLeftLinear then .leftLinear
  else if g.IsContextFree then .contextFree
  else .unrecognized

end Grammar

end GrammarAutomata
