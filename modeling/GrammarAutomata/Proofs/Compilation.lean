import GrammarAutomata.Dfa.OfGrammar
import GrammarAutomata.Proofs.Chains
import GrammarAutomata.Proofs.DfaWords
import GrammarAutomata.Proofs.GrammarWords
import GrammarAutomata.Proofs.Reversal

/-!
# The compiled automaton accepts what the grammar generates

The stages one after the other: arcs derive what productions do, read forwards or
backwards (`Grammar.derives_arcs_iff`); the automaton that goes the arcs accepts what they
derive, and reversing it turns a left-linear grammar back (`Nfa.accepts_ofGrammar_iff`);
subset construction keeps the language. The two enumerations, of the grammar and of
the automaton, therefore list the same words.
-/

namespace GrammarAutomata

variable {g : Grammar} {options : Options} {arcs : List Arc} {w : Word}

/-- Arcs derive what the productions derive, read in their direction. -/
theorem Grammar.derives_arcs_iff {units : UnitProductions} {direction : Direction} {u v : Word}
    (h : g.arcs units direction = .ok arcs) :
    Derives (arcs.map Arc.production) u v ↔ Derives (g.productions.map direction.read) u v :=
  ⟨.mono fun _ => (mem_map_production_iff h).mp, .mono fun _ => (mem_map_production_iff h).mpr⟩

theorem Direction.map_read_right (ps : List Production) : ps.map Direction.right.read = ps :=
  List.map_id ps

theorem Direction.map_read_left (ps : List Production) :
    ps.map Direction.left.read = ps.map Production.reversed := rfl

namespace Nfa

variable {n : Nfa}

/-- An automaton of a grammar goes the arcs of its productions, or is the reverse of
one that goes the arcs of its productions read backwards. -/
theorem exists_arcs_of_ofGrammar (h : ofGrammar g options = .ok n) :
    (∃ arcs, g.arcs options.unitProductions .right = .ok arcs ∧ n = ofArcs g arcs) ∨
    (∃ arcs, g.arcs options.unitProductions .left = .ok arcs ∧ n = (ofArcs g arcs).reverse) := by
  unfold ofGrammar at h
  split at h
  · exact .inl (exists_of_map_eq_ok h)
  · exact .inl (exists_of_map_eq_ok h)
  · exact .inr (exists_of_map_eq_ok h)
  · cases h

theorem alphabet_ofGrammar (h : ofGrammar g options = .ok n) : n.alphabet = g.terminals := by
  rcases exists_arcs_of_ofGrammar h with ⟨arcs, _, rfl⟩ | ⟨arcs, _, rfl⟩ <;> rfl

theorem body_ne_nil_of_ofGrammar (h : ofGrammar g options = .ok n) :
    ∀ p ∈ g.productions, p.body ≠ [] := by
  rcases exists_arcs_of_ofGrammar h with ⟨arcs, harcs, _⟩ | ⟨arcs, harcs, _⟩ <;>
    exact Grammar.body_ne_nil_of_arcs harcs

/-- The automaton of a grammar accepts the terminal words that are derived from the
start symbol. -/
theorem accepts_ofGrammar_iff (h : ofGrammar g options = .ok n) (hw : g.AllTerminal w) :
    n.Accepts w ↔ Derives g.productions [g.start] w := by
  have hsettled := Grammar.not_mem_nonterminals_of_allTerminal hw
  rcases exists_arcs_of_ofGrammar h with ⟨arcs, harcs, rfl⟩ | ⟨arcs, harcs, rfl⟩
  · rw [accepts_ofArcs_iff (Grammar.fits_of_mem_arcs harcs) hsettled,
      Grammar.derives_arcs_iff harcs, Direction.map_read_right]
  · -- bodies are read backwards, then the automaton is: twice is not at all
    have hsettled' : ∀ c ∈ w.reverse, c ∉ g.nonterminals := fun c hc =>
      hsettled c (List.mem_reverse.mp hc)
    calc (ofArcs g arcs).reverse.Accepts w
        ↔ (ofArcs g arcs).Accepts w.reverse := accepts_reverse_iff
      _ ↔ Derives (arcs.map Arc.production) [g.start] w.reverse :=
          accepts_ofArcs_iff (Grammar.fits_of_mem_arcs harcs) hsettled'
      _ ↔ Derives (g.productions.map Direction.left.read) [g.start] w.reverse :=
          Grammar.derives_arcs_iff harcs
      _ ↔ Derives g.productions [g.start] w := by
          rw [Direction.map_read_left, derives_reversed_iff, List.reverse_reverse,
            List.reverse_singleton]

end Nfa

namespace Dfa

variable {d : Dfa} {n : Nat}

/-- A compiled automaton is that of a nondeterministic one without a limit. -/
theorem exists_nfa_of_ofGrammar (h : ofGrammar g options = .ok d) :
    ∃ n, Nfa.ofGrammar g options = .ok n ∧ d = ofNfa n := by
  unfold ofGrammar at h
  cases hn : Nfa.ofGrammar g options with
  | error e => rw [hn] at h; cases h
  | ok n => rw [hn] at h; exact ⟨n, rfl, eq_ofNfa_of_ofNfaWith h⟩

theorem accepts?_ofGrammar_iff (h : ofGrammar g options = .ok d) :
    d.accepts? w = some true ↔ g.Generates w := by
  obtain ⟨n, hn, rfl⟩ := exists_nfa_of_ofGrammar h
  rw [accepts?_ofNfa_iff, Nfa.alphabet_ofGrammar hn]
  exact and_congr_right fun hw => Nfa.accepts_ofGrammar_iff hn hw

theorem words?_ofGrammar (h : ofGrammar g options = .ok d) : d.words? n = some (g.words n) := by
  obtain ⟨m, hm, rfl⟩ := exists_nfa_of_ofGrammar h
  obtain ⟨words, hwords, hmem⟩ := exists_words?_ofNfa m n
  have hne : g.nonemptyProductions = g.productions :=
    List.filter_eq_self.mpr fun p hp => by simpa using Nfa.body_ne_nil_of_ofGrammar hm p hp
  rw [hwords, Option.some.injEq]
  refine SortedSet.ext fun w => ?_
  rw [hmem, accepts?_ofGrammar_iff h, Grammar.mem_words_iff, hne]
  rfl

/-- **Compilation is correct.** Whenever it has a result, the automaton accepts exactly
the words of terminals that are derived from the start symbol, and it rejects all other
words; the words of the automaton up to any length are those of the grammar. -/
theorem ofGrammar_accepts_derived (g : Grammar) (options : Options) (d : Dfa)
    (h : ofGrammar g options = .ok d) :
    (∀ w, ∃ accepted, d.accepts? w = some accepted ∧ (accepted = true ↔
      (∀ c ∈ w, c ∈ g.terminals) ∧ Derives g.productions [g.start] w)) ∧
    ∀ n, d.words? n = some (g.words n) := by
  refine ⟨fun w => ?_, fun n => words?_ofGrammar h⟩
  obtain ⟨n, _, rfl⟩ := exists_nfa_of_ofGrammar h
  obtain ⟨accepted, haccepted⟩ := exists_accepts?_ofNfa (n := n) (w := w)
  have hiff := accepts?_ofGrammar_iff (w := w) h
  rw [haccepted, Option.some.injEq] at hiff
  exact ⟨accepted, haccepted, hiff⟩

/-- A left-linear grammar with unit productions in a cycle, a body of three symbols and
a production that is listed twice. -/
def leftSample : Grammar where
  nonterminals := {'A', 'S'}
  terminals := {'a', 'b'}
  start := 'S'
  productions := [⟨'S', ['A']⟩, ⟨'A', ['S', 'a', 'b']⟩, ⟨'A', ['S']⟩, ⟨'A', ['b']⟩, ⟨'A', ['b']⟩]
  wellFormed := Draft.defect?_eq_none_iff.mp (by decide)

theorem ofGrammar_leftSample : ∃ d, ofGrammar leftSample ⟨.epsilon, some 8⟩ = .ok d ∧
    (∀ w, ∃ accepted, d.accepts? w = some accepted ∧ (accepted = true ↔
      (∀ c ∈ w, c ∈ leftSample.terminals) ∧
        Derives leftSample.productions [leftSample.start] w)) ∧
    ∀ n, d.words? n = some (leftSample.words n) := by
  have hok : (ofGrammar leftSample ⟨.epsilon, some 8⟩).isOk = true := by decide +kernel
  cases h : ofGrammar leftSample ⟨.epsilon, some 8⟩ with
  | error e => rw [h] at hok; cases hok
  | ok d => exact ⟨d, rfl, ofGrammar_accepts_derived leftSample _ d h⟩

end Dfa

end GrammarAutomata
