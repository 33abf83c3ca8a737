import GrammarAutomata.Label

/-!
# Transitions

A transition leads from one state to another and reads a label. Seen from the
state in which it begins it is a move: a label and the state it leads to.
-/

namespace GrammarAutomata

/-- A step out of a state. -/
structure Move where
  /-- what it reads -/
  label : Label
  /-- where it leads -/
  target : Nat
  deriving DecidableEq, Repr

/-- A step from state `source` to state `target`. -/
structure Transition where
  /-- where the step begins -/
  source : Nat
  /-- what it reads -/
  label : Label
  /-- where it leads -/
  target : Nat
  deriving DecidableEq, Repr

namespace Transition

/-- The transition as it is seen from its source. -/
def move (t : Transition) : Move := ⟨t.label, t.target⟩

/-- The same step taken backwards. -/
def flipped (t : Transition) : Transition := ⟨t.target, t.label, t.source⟩

@[simp] theorem flipped_flipped (t : Transition) : t.flipped.flipped = t := rfl

end Transition

end GrammarAutomata
