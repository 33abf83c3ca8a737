import GrammarAutomata.Grammar.Basic

/-!
# Derivations

What a grammar generates, said without any search: one step replaces one
occurrence of a left-hand side, anywhere in the word, by the body of the
production; a derivation is any number of steps. The relations are over a list
of productions, so that one can also ask what is derived by some of them.
-/

namespace GrammarAutomata

/-- From `u` comes `v` by replacing one occurrence of a left-hand side by its
body. -/
inductive DerivesStep (productions : List Production) : Word → Word → Prop
  | intro {p : Production} (hp : p ∈ productions) (before after : Word) :
    DerivesStep productions (before ++ p.lhs :: after) (before ++ p.body ++ after)

/-- From `u` comes `v` by finitely many replacements. -/
inductive Derives (productions : List Production) : Word → Word → Prop
  | refl (u : Word) : Derives productions u u
  | tail {u v w : Word} : Derives productions u v → DerivesStep productions v w →
    Derives productions u w

/-- Read backwards, a step replaces by a body read backwards. -/
theorem DerivesStep.reversed {ps : List Production} {u v : Word} (h : DerivesStep ps u v) :
    DerivesStep (ps.map Production.reversed) u.reverse v.reverse := by
  obtain ⟨hp, before, after⟩ := h
  rename_i p
  have hp' : p.reversed ∈ ps.map Production.reversed := List.mem_map_of_mem hp
  simpa [Production.reversed] using DerivesStep.intro hp' after.reverse before.reverse

namespace Derives

variable {ps : List Production} {u v w : Word}

theorem single (h : DerivesStep ps u v) : Derives ps u v := .tail (.refl u) h

theorem trans (h : Derives ps u v) (h' : Derives ps v w) : Derives ps u w := by
  induction h' with
  | refl => exact h
  | tail _ hstep ih => exact ih.tail hstep

/-- What is derived inside a word is derived with the word around it. -/
theorem append_append (before after : Word) (h : Derives ps u v) :
    Derives ps (before ++ u ++ after) (before ++ v ++ after) := by
  induction h with
  | refl => exact .refl _
  | tail _ hstep ih =>
    refine ih.tail ?_
    obtain ⟨hp, b, a⟩ := hstep
    rename_i p
    have h := DerivesStep.intro hp (before ++ b) (a ++ after)
    simpa using h

/-- More productions derive no less. -/
theorem mono {qs : List Production} (hsub : ∀ p ∈ ps, p ∈ qs) (h : Derives ps u v) :
    Derives qs u v := by
  induction h with
  | refl => exact .refl _
  | tail _ hstep ih =>
    obtain ⟨hp, b, a⟩ := hstep
    exact ih.tail (.intro (hsub _ hp) b a)

theorem reversed (h : Derives ps u v) :
    Derives (ps.map Production.reversed) u.reverse v.reverse := by
  induction h with
  | refl => exact .refl _
  | tail _ hstep ih => exact ih.tail hstep.reversed

end Derives

/-- What productions read backwards derive is what they derive, read backwards. -/
theorem derives_reversed_iff {ps : List Production} {u v : Word} :
    Derives (ps.map Production.reversed) u v ↔ Derives ps u.reverse v.reverse := by
  refine ⟨fun h => ?_, fun h => ?_⟩
  · simpa [Function.comp_def] using h.reversed
  · simpa using h.reversed

namespace Grammar

/-- The word `w` consists of terminals and is derived from the start symbol. -/
def Generates (g : Grammar) (w : Word) : Prop :=
  g.AllTerminal w ∧ Derives g.productions [g.start] w

end Grammar

end GrammarAutomata
