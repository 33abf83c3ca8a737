import GrammarAutomata.Proofs.Compilation
import GrammarAutomata.Proofs.Refusals

/-!
# What the state of a nonterminal stands for

The language of an automaton speaks of paths from its initial state only. In the
automaton of a grammar every nonterminal has a state, and the paths between these say
what each nonterminal derives: in a right-linear grammar a path leads on from the
nonterminal that is replaced to the one that is left, or to acceptance
(`Nfa.path_ofArcs_iff`); in a left-linear one, whose automaton is turned around, it
leads from the beginning of the word to the nonterminal that the word is derived from
(`Nfa.path_reverse_ofArcs_iff`).
-/

namespace GrammarAutomata.Nfa

variable {g : Grammar} {options : Options} {n : Nfa} {arcs : List Arc} {a : Char} {q : Nat}

/-! ## The state of a nonterminal -/

/-- In whichever direction a grammar is read, its states have the same kinds, up to the
one that reversal adds. -/
theorem exists_kindsOf_of_ofGrammar (h : ofGrammar g options = .ok n) :
    ∃ arcs, ∀ kind ≠ StateKind.entry, ∀ q : Nat,
      n.kinds[q]? = some kind ↔ (kindsOf g arcs)[q]? = some kind := by
  rcases exists_arcs_of_ofGrammar h with ⟨arcs, _, rfl⟩ | ⟨arcs, _, rfl⟩
  · exact ⟨arcs, fun kind _ q => by rw [kinds_ofArcs]⟩
  · refine ⟨arcs, fun kind hkind q => ?_⟩
    rw [getElem?_kinds_reverse_iff hkind, kinds_ofArcs]

/-! ## Derivations read from right to left -/

/-- In the automaton turned around a path from the beginning leads to the state of a
nonterminal if and only if the arcs derive what it reads, backwards. -/
theorem path_reverse_ofArcs_iff (hfits : ∀ arc ∈ arcs, arc.Fits g) {u : Word}
    (ha : a ∈ g.nonterminals) (hu : ∀ c ∈ u, c ∉ g.nonterminals) :
    (ofArcs g arcs).reverse.Path (ofArcs g arcs).reverse.initial u (g.stateOf (some a)) ↔
      Derives (arcs.map Arc.production) [a] u.reverse := by
  have hlt : g.stateOf (some a) < (ofArcs g arcs).size := by
    rw [← length_kinds, kinds_ofArcs, length_kindsOf]
    have := Grammar.stateOf_lt ha
    omega
  have hsettled : Settled g u.reverse none :=
    ⟨fun c hc => hu c (List.mem_reverse.mp hc), nofun⟩
  calc (ofArcs g arcs).reverse.Path (ofArcs g arcs).reverse.initial u (g.stateOf (some a))
      ↔ ∃ f ∈ (ofArcs g arcs).finals,
          (ofArcs g arcs).Path (g.stateOf (some a)) u.reverse f := path_reverse_size_iff hlt
    _ ↔ (ofArcs g arcs).Path (g.stateOf (some a)) u.reverse (g.stateOf none) := by
        show (∃ f ∈ ({g.acceptState} : SortedSet Nat), _) ↔ _
        simp only [SortedSet.mem_singleton, exists_eq_left]
        rfl
    _ ↔ Derives (arcs.map Arc.production) [a] u.reverse := by
        rw [path_ofArcs_iff hfits ha hsettled, Option.toList_none, List.append_nil]

/-! ## Every state -/

/-- **Every state means its nonterminal.** In the automaton of a grammar there is one
state for each nonterminal, and one for acceptance. Where the grammar is right-linear,
the words that lead from the state of one nonterminal to that of another are those that
the first derives with the second behind them, and those that lead to acceptance are
those that it derives alone. Where it is left-linear only, the words that lead from the
beginning to the state of a nonterminal are those that it derives. -/
theorem path_of_nonterminals (g : Grammar) (options : Options) (n : Nfa)
    (h : ofGrammar g options = .ok n) :
    (∀ a ∈ g.nonterminals, ∀ q : Nat,
      n.kinds[q]? = some (.nonterminal a) ↔ q = g.stateOf (some a)) ∧
    (∀ q : Nat, n.kinds[q]? = some .accept ↔ q = g.stateOf none) ∧
    (g.IsRightLinear → ∀ a ∈ g.nonterminals, ∀ u, g.AllTerminal u →
      (∀ b ∈ g.nonterminals, n.Path (g.stateOf (some a)) u (g.stateOf (some b)) ↔
        Derives g.productions [a] (u ++ [b])) ∧
      (n.Path (g.stateOf (some a)) u (g.stateOf none) ↔ Derives g.productions [a] u)) ∧
    (g.IsLeftLinear → ¬ g.IsRightLinear → n.kinds[n.initial]? = some .entry ∧
      ∀ a ∈ g.nonterminals, ∀ u, g.AllTerminal u →
        (n.Path n.initial u (g.stateOf (some a)) ↔ Derives g.productions [a] u)) := by
  obtain ⟨arcs, hkinds⟩ := exists_kindsOf_of_ofGrammar h
  refine ⟨fun a ha q => ?_, fun q => ?_, fun hright a ha u hu => ?_, fun hleft hnot => ?_⟩
  · rw [hkinds (.nonterminal a) nofun, getElem?_kindsOf_nonterminal_iff, and_iff_right ha]
  · rw [hkinds .accept nofun, getElem?_kindsOf_accept_iff]
  · rw [ofGrammar_of_isRightLinear hright] at h
    obtain ⟨arcs, harcs, rfl⟩ := exists_of_map_eq_ok h
    have hpath {b : Option Char} (hb : ∀ x ∈ b, x ∈ g.nonterminals) :
        (ofArcs g arcs).Path (g.stateOf (some a)) u (g.stateOf b) ↔
          Derives g.productions [a] (u ++ b.toList) := by
      rw [path_ofArcs_iff (Grammar.fits_of_mem_arcs harcs) ha
        ⟨Grammar.not_mem_nonterminals_of_allTerminal hu, hb⟩,
        Grammar.derives_arcs_iff harcs, Direction.map_read_right]
    refine ⟨fun b hb => hpath fun x hx => Option.mem_some_iff.mp hx ▸ hb, ?_⟩
    simpa using hpath (b := none) nofun
  · rw [ofGrammar_of_isLeftLinear hnot hleft] at h
    obtain ⟨arcs, harcs, rfl⟩ := exists_of_map_eq_ok h
    refine ⟨getElem?_kinds_reverse_initial, fun a ha u hu => ?_⟩
    rw [path_reverse_ofArcs_iff (Grammar.fits_of_mem_arcs harcs) ha
        (Grammar.not_mem_nonterminals_of_allTerminal hu),
      Grammar.derives_arcs_iff harcs, Direction.map_read_left, derives_reversed_iff,
      List.reverse_reverse, List.reverse_singleton]

/-- From the nonterminal `A` the left-linear sample derives `bab` in three steps, the second by
a unit production. Read backwards its productions are right-linear. -/
theorem path_of_nonterminals_samples :
    (∃ n, ofGrammar Dfa.leftSample.reversed {} = .ok n ∧
      n.Path (Dfa.leftSample.reversed.stateOf (some 'A')) ['b', 'a']
        (Dfa.leftSample.reversed.stateOf (some 'S')) ∧
      n.Path (Dfa.leftSample.reversed.stateOf (some 'A')) ['b', 'a', 'b']
        (Dfa.leftSample.reversed.stateOf none)) ∧
    ∃ n, ofGrammar Dfa.leftSample {} = .ok n ∧
      n.Path n.initial ['b', 'a', 'b'] (Dfa.leftSample.stateOf (some 'A')) := by
  have hone : Derives Dfa.leftSample.productions ['A'] ['S', 'a', 'b'] :=
    .single (.intro (p := ⟨'A', ['S', 'a', 'b']⟩) (by decide) [] [])
  have hall : Derives Dfa.leftSample.productions ['A'] ['b', 'a', 'b'] :=
    (hone.tail (.intro (p := ⟨'S', ['A']⟩) (by decide) [] ['a', 'b'])).tail
      (.intro (p := ⟨'A', ['b']⟩) (by decide) [] ['a', 'b'])
  refine ⟨?_, ?_⟩
  · obtain ⟨n, h⟩ := exists_ok_of_isOk (x := ofGrammar Dfa.leftSample.reversed {}) (by decide +kernel)
    obtain ⟨_, _, hright, _⟩ := path_of_nonterminals _ _ _ h
    have hpath := hright (by decide) 'A' (by decide)
    exact ⟨n, h, ((hpath ['b', 'a'] (by decide)).1 'S' (by decide)).mpr hone.reversed,
      (hpath ['b', 'a', 'b'] (by decide)).2.mpr hall.reversed⟩
  · obtain ⟨n, h⟩ := exists_ok_of_isOk (x := ofGrammar Dfa.leftSample {}) (by decide +kernel)
    obtain ⟨_, _, _, hleft⟩ := path_of_nonterminals _ _ _ h
    obtain ⟨_, hpath⟩ := hleft (by decide) (by decide)
    exact ⟨n, h, (hpath 'A' (by decide) ['b', 'a', 'b'] (by decide)).mpr hall⟩

end GrammarAutomata.Nfa
