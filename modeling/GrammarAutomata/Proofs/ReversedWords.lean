import GrammarAutomata.Grammar.Defect
import GrammarAutomata.Proofs.GrammarWords

/-!
# The words of the reversed grammar

Both searches replace leftmost nonterminals. Read backwards, those of the reversed
grammar are the rightmost ones of the grammar itself, so the two searches find
different forms on the way. They agree on words all the same, because each finds
whatever is derived, in any order (`Grammar.mem_words_iff`), and a derivation can be
read backwards step by step.
-/

namespace GrammarAutomata.Grammar

variable {g : Grammar} {n : Nat} {w : Word}

/-- A body is empty if and only if it is so when read backwards. -/
theorem nonemptyProductions_reversed :
    g.reversed.nonemptyProductions = g.nonemptyProductions.map Production.reversed := by
  have hempty : (fun p : Production => decide (p.body ≠ [])) ∘ Production.reversed =
      fun p => decide (p.body ≠ []) := by
    funext p
    simp [Production.reversed]
  show (g.productions.map Production.reversed).filter _ = (g.productions.filter _).map _
  rw [List.filter_map, hempty]

theorem mem_words_reversed_iff : w ∈ g.reversed.words n ↔ w.reverse ∈ g.words n := by
  have hderives : Derives g.reversed.nonemptyProductions [g.start] w ↔
      Derives g.nonemptyProductions [g.start] w.reverse := by
    rw [nonemptyProductions_reversed, derives_reversed_iff, List.reverse_singleton]
  calc w ∈ g.reversed.words n
      ↔ w.length ≤ n ∧ g.AllTerminal w ∧ Derives g.reversed.nonemptyProductions [g.start] w :=
        mem_words_iff
    _ ↔ w.reverse.length ≤ n ∧ g.AllTerminal w.reverse ∧
          Derives g.nonemptyProductions [g.start] w.reverse := by
        rw [hderives, allTerminal_reverse_iff, List.length_reverse]
    _ ↔ w.reverse ∈ g.words n := mem_words_iff.symm

/-- **The reversed grammar has the reversed words**, whatever nonterminals its bodies
hold and up to any length. Validation finds nothing wrong with it, and to reverse it
again gives back the grammar. -/
theorem words_reversed (g : Grammar) (n : Nat) :
    g.reversed.words n = .ofList ((g.words n).toList.map List.reverse) ∧
    g.toDraft.reversed.validate = .ok g.reversed ∧ g.reversed.reversed = g := by
  refine ⟨SortedSet.ext fun w => ?_, validate_toDraft g.reversed, reversed_reversed g⟩
  rw [mem_words_reversed_iff, SortedSet.mem_ofList, List.mem_map]
  refine ⟨?_, ?_⟩
  · intro h
    exact ⟨w.reverse, h, List.reverse_reverse w⟩
  · rintro ⟨v, hv, rfl⟩
    rwa [List.reverse_reverse]

end GrammarAutomata.Grammar
