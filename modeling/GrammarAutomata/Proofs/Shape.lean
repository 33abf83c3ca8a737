import GrammarAutomata.Proofs.Compilation
import GrammarAutomata.Proofs.Refusals
import GrammarAutomata.Proofs.Renaming
import GrammarAutomata.Proofs.TransitionCounts
import GrammarAutomata.Proofs.TurnedAround

/-!
# The shape of the automaton of a grammar

How large the automaton of a linear grammar is can be told from its productions, by how
many terminals their bodies have (`Grammar.terminalCount`). A production with several
terminals has a chain of its own, with a state between any two transitions; one with a
terminal or none is a transition between named states, which it shares with its equals.
That is all there is, and reversal adds one state and one transition
(`Nfa.shape_ofGrammar`). So no path can leave a chain half-way: in a state inside one there
is one way in and one way out (`Nfa.IsPassage`).
-/

namespace GrammarAutomata

/-! ## Counting on the grammar -/

namespace Grammar

variable (g : Grammar)

/-- How many terminals the body of a production has. -/
def terminalCount (p : Production) : Nat := p.body.countP (· ∈ g.terminals)

/-- How many states are inside chains: between the terminals of each body. -/
def chainStates : Nat := (g.productions.map fun p => g.terminalCount p - 1).sum

/-- How many transitions chains have: one for each terminal of a body that has several. -/
def chainTransitions : Nat :=
  ((g.productions.filter (2 ≤ g.terminalCount ·)).map g.terminalCount).sum

/-- How many different productions have no more than one terminal. -/
def directTransitions : Nat := (g.productions.filter (g.terminalCount · ≤ 1)).dedup.length

variable {g} {units : UnitProductions} {direction : Direction} {arcs : List Arc} {arc : Arc}
  {p : Production}

/-- There are as many states in order as there are nonterminals, and then comes acceptance. -/
theorem acceptState_eq (g : Grammar) : g.acceptState = g.nonterminals.size :=
  ((List.perm_ext_iff_of_nodup g.nodup_stateOrder g.nonterminals.nodup_toList).mpr
    fun _ => mem_stateOrder_iff).length_eq

/-- An arc reads the terminals of the body that it goes. -/
theorem length_word_of_arc_read (hp : p ∈ g.productions)
    (h : g.arc units (direction.read p) = .ok arc) : arc.word.length = g.terminalCount p := by
  have hbody : (direction.read p).body = arc.word ++ arc.target.toList := by
    rw [← production_of_arc h]
    rfl
  have hcount : g.terminalCount p = (direction.read p).body.countP (· ∈ g.terminals) := by
    cases direction with
    | right => rfl
    | left => exact List.countP_reverse.symm
  have hword : arc.word.countP (· ∈ g.terminals) = arc.word.length :=
    List.countP_eq_length.mpr fun c hc =>
      decide_eq_true (allTerminal_word_of_arc_read hp h c hc)
  have htarget : arc.target.toList.countP (· ∈ g.terminals) = 0 := by
    refine List.countP_eq_zero.mpr fun b hb hterminal => ?_
    exact g.wellFormed.not_both b (of_decide_eq_true hterminal)
      ((fits_of_arc_read hp h).target_mem b (Option.mem_toList.mp hb))
  rw [hcount, hbody, List.countP_append, hword, htarget, Nat.add_zero]

theorem map_length_word (h : g.arcs units direction = .ok arcs) :
    arcs.map (·.word.length) = g.productions.map g.terminalCount :=
  map_eq_map_of_arcs h fun _ hp _ => length_word_of_arc_read hp

theorem innerStates_eq_sum (arcs : List Arc) :
    innerStates arcs = (arcs.map fun arc => arc.word.length - 1).sum := by
  induction arcs with
  | nil => rfl
  | cons arc arcs ih => rw [innerStates, ih, List.map_cons, List.sum_cons, Arc.inner]

theorem innerStates_eq (h : g.arcs units direction = .ok arcs) :
    innerStates arcs = g.chainStates := by
  have hmap := congrArg (List.map (· - 1)) (map_length_word h)
  rw [List.map_map, List.map_map] at hmap
  rw [innerStates_eq_sum]
  exact congrArg List.sum hmap

theorem sum_lengths_eq (h : g.arcs units direction = .ok arcs) :
    ((arcs.map (·.word.length)).filter (2 ≤ ·)).sum = g.chainTransitions := by
  rw [map_length_word h, List.filter_map]
  rfl

/-- The short productions, as they are read, are those that the short arcs go. -/
theorem mem_short_iff (h : g.arcs units direction = .ok arcs) :
    p ∈ (arcs.filter (·.word.length ≤ 1)).map Arc.production ↔
      p ∈ (g.productions.filter (g.terminalCount · ≤ 1)).map direction.read := by
  simp only [List.mem_map, List.mem_filter, decide_eq_true_eq]
  refine ⟨?_, ?_⟩
  · rintro ⟨arc, ⟨harc, hlength⟩, rfl⟩
    obtain ⟨p, hp, heq⟩ := exists_production_of_mem h harc
    rw [length_word_of_arc_read hp heq] at hlength
    exact ⟨p, ⟨hp, hlength⟩, (production_of_arc heq).symm⟩
  · rintro ⟨p, ⟨hp, hcount⟩, rfl⟩
    obtain ⟨arc, harc, heq⟩ := exists_arc_of_mem h hp
    rw [← length_word_of_arc_read hp heq] at hcount
    exact ⟨arc, ⟨harc, hcount⟩, production_of_arc heq⟩

/-- There are as many different short arcs as short productions. -/
theorem length_dedup_short (h : g.arcs units direction = .ok arcs) :
    (arcs.filter (·.word.length ≤ 1)).dedup.length = g.directTransitions := by
  have hread (p q : Production) (heq : direction.read p = direction.read q) : p = q := by
    cases direction with
    | right => exact heq
    | left => rw [← p.reversed_reversed, ← q.reversed_reversed]; exact congrArg _ heq
  have hfits : ∀ arc ∈ arcs.filter (·.word.length ≤ 1), arc.Fits g := fun arc harc =>
    fits_of_mem_arcs h arc (List.mem_filter.mp harc).1
  calc (arcs.filter (·.word.length ≤ 1)).dedup.length
      = ((arcs.filter (·.word.length ≤ 1)).map Arc.production).dedup.length :=
        (length_dedup_map fun arc harc arc' harc' =>
          (hfits arc harc).eq_of_production_eq (hfits arc' harc')).symm
    _ = ((g.productions.filter (g.terminalCount · ≤ 1)).map direction.read).dedup.length :=
        length_dedup_eq_of_mem_iff fun p => mem_short_iff h
    _ = g.directTransitions := length_dedup_map fun p _ q _ => hread p q

end Grammar

namespace Nfa

/-! ## States inside chains -/

/-- There is one way into the state and one way out. -/
def IsPassage (n : Nfa) (q : Nat) : Prop :=
  (∃! t, t ∈ n.transitions ∧ t.target = q) ∧ ∃! t, t ∈ n.transitions ∧ t.source = q

variable {g : Grammar} {options : Options} {n : Nfa} {arcs : List Arc} {arc arc' : Arc}
  {first first' i j q : Nat}

/-- A state inside a chain stands at one place of one chain. -/
theorem eq_of_laneState_eq (hfits : ∀ arc ∈ arcs, arc.Fits g)
    (hlane : (arc, first) ∈ lanes (g.acceptState + 1) arcs) (hi : i < arc.inner)
    (hlane' : (arc', first') ∈ lanes (g.acceptState + 1) arcs)
    (h : laneState g arc' first' j = first + i) : arc' = arc ∧ first' = first ∧ j = i + 1 := by
  have hitem : (items g arcs)[first + i]? = some (.inside arc i) :=
    getElem?_items_inside_iff.mpr ⟨first, hlane, hi, rfl⟩
  rw [← h, getElem?_items_laneState (hfits arc' (mem_of_mem_lanes hlane')) hlane',
    Option.some.injEq, Arc.item] at hitem
  cases j with
  | zero => cases hitem
  | succ j =>
    rw [station] at hitem
    split at hitem
    · rename_i hj
      cases hitem
      rw [laneState, station, if_pos hj] at h
      exact ⟨rfl, Nat.add_right_cancel h, rfl⟩
    · cases hitem

/-- A state inside a chain is a passage: the transitions before and behind it are those of the
chain. -/
theorem isPassage_ofArcs (hfits : ∀ arc ∈ arcs, arc.Fits g)
    (hq : (ofArcs g arcs).kinds[q]? = some .intermediate) : (ofArcs g arcs).IsPassage q := by
  rw [kinds_ofArcs, ← map_kind_items, List.getElem?_map, Option.map_eq_some_iff] at hq
  obtain ⟨item, hitem, hkind⟩ := hq
  obtain ⟨arc, i, rfl⟩ : ∃ arc i, item = .inside arc i := by
    rcases item with ⟨_ | a⟩ | ⟨arc, i⟩
    · cases hkind
    · cases hkind
    · exact ⟨arc, i, rfl⟩
  obtain ⟨first, hlane, hi, rfl⟩ := getElem?_items_inside_iff.mp hitem
  have hstate : laneState g arc first (i + 1) = first + i := by rw [laneState, station, if_pos hi]
  have hlabel (k : Nat) (hk : k ≤ arc.inner) : ∃ l, arc.word.labels[k]? = some l := by
    have hlt : k < arc.word.labels.length := by
      rw [Word.length_labels]
      exact Nat.lt_succ_of_le hk
    exact ⟨_, List.getElem?_eq_getElem hlt⟩
  refine ⟨?_, ?_⟩
  · obtain ⟨l, hl⟩ := hlabel i (Nat.le_of_lt hi)
    refine ⟨⟨_, l, _⟩,
      ⟨mem_transitions_ofArcs_iff.mpr ⟨arc, first, i, l, hlane, hl, rfl⟩, hstate⟩, ?_⟩
    rintro t ⟨ht, htarget⟩
    obtain ⟨arc', first', j, l', hlane', hl', rfl⟩ := mem_transitions_ofArcs_iff.mp ht
    replace htarget : laneState g arc' first' (j + 1) = first + i := htarget
    obtain ⟨rfl, rfl, hj⟩ := eq_of_laneState_eq hfits hlane hi hlane' htarget
    cases hj
    cases hl.symm.trans hl'
    rfl
  · obtain ⟨l, hl⟩ := hlabel (i + 1) hi
    refine ⟨⟨_, l, _⟩,
      ⟨mem_transitions_ofArcs_iff.mpr ⟨arc, first, i + 1, l, hlane, hl, rfl⟩, hstate⟩, ?_⟩
    rintro t ⟨ht, hsource⟩
    obtain ⟨arc', first', j, l', hlane', hl', rfl⟩ := mem_transitions_ofArcs_iff.mp ht
    obtain ⟨rfl, rfl, rfl⟩ := eq_of_laneState_eq hfits hlane hi hlane' hsource
    cases hl.symm.trans hl'
    rfl

/-- Reversal turns passages around. It adds a way to a state only if the state is final. -/
theorem IsPassage.reverse (h : n.IsPassage q) (hq : q < n.size) (hfinal : q ∉ n.finals) :
    n.reverse.IsPassage q := by
  obtain ⟨⟨s, ⟨hs, htarget⟩, hs'⟩, ⟨t, ⟨ht, hsource⟩, ht'⟩⟩ := h
  refine ⟨⟨t.flipped, ⟨mem_transitions_reverse.mpr (.inr ht), hsource⟩, ?_⟩,
    ⟨s.flipped, ⟨mem_transitions_reverse.mpr (.inr hs), htarget⟩, ?_⟩⟩
  · rintro u ⟨hu, rfl⟩
    rcases mem_transitions_reverse.mp hu with ⟨_, _, hmem⟩ | hu
    · exact absurd hmem hfinal
    · exact congrArg Transition.flipped (ht' u.flipped ⟨hu, rfl⟩)
  · rintro u ⟨hu, rfl⟩
    have hu := mem_transitions_of_reverse hq hu
    exact congrArg Transition.flipped (hs' u.flipped ⟨hu, rfl⟩)

/-! ## The whole automaton -/

/-- What the automaton `n` of the grammar `g` is made of, where behind the states inside chains
come states of the kinds `rest`, each with one transition, and reading goes from state `first`
to state `last`. -/
structure Shape (g : Grammar) (n : Nfa) (rest : List StateKind) (first last : Nat) : Prop where
  /-- nonterminals, acceptance and what is inside chains have a state each -/
  size_eq : n.size = g.nonterminals.size + 1 + g.chainStates + rest.length
  /-- first the start symbol, then the other nonterminals in ascending order, and so on -/
  kinds_eq : n.kinds =
    .nonterminal g.start :: (g.nonterminals.toList.filter (· ≠ g.start)).map .nonterminal ++
      .accept :: List.replicate g.chainStates .intermediate ++ rest
  /-- behind the nonterminals comes acceptance -/
  accept : n.kinds[g.nonterminals.size]? = some .accept
  /-- reading begins in one state -/
  initial_eq : n.initial = first
  /-- it may end in one state -/
  finals_eq : n.finals = {last}
  /-- equal productions share a transition, but no chain -/
  numTransitions_eq :
    n.numTransitions = g.chainTransitions + g.directTransitions + rest.length
  /-- chains meet in named states only -/
  isPassage : ∀ q : Nat, n.kinds[q]? = some .intermediate → n.IsPassage q

theorem shape_ofArcs {units : UnitProductions} {direction : Direction}
    (h : g.arcs units direction = .ok arcs) :
    Shape g (ofArcs g arcs) [] 0 g.nonterminals.size := by
  have hfits := Grammar.fits_of_mem_arcs h
  have hkinds : (ofArcs g arcs).kinds = g.stateOrder.map .nonterminal ++
      .accept :: List.replicate g.chainStates .intermediate := by
    rw [kinds_ofArcs, kindsOf, Grammar.innerStates_eq h]
  exact {
    size_eq := by
      rw [← length_kinds, kinds_ofArcs, length_kindsOf, Grammar.acceptState_eq,
        Grammar.innerStates_eq h]
      rfl
    kinds_eq := by
      rw [hkinds, List.append_nil]
      rfl
    accept := by
      rw [kinds_ofArcs, getElem?_kindsOf_accept_iff, ← Grammar.acceptState_eq]
      rfl
    initial_eq := rfl
    finals_eq := by
      rw [← Grammar.acceptState_eq]
      rfl
    numTransitions_eq := by
      rw [numTransitions_ofArcs hfits, Grammar.sum_lengths_eq h, Grammar.length_dedup_short h]
      rfl
    isPassage := fun q => isPassage_ofArcs hfits }

/-- Reversal adds the state in which it lets reading begin. -/
theorem Shape.reverse (h : Shape g n [] 0 g.nonterminals.size) :
    Shape g n.reverse [.entry] n.size 0 where
  size_eq := by
    rw [size_reverse, h.size_eq]
    rfl
  kinds_eq := by rw [kinds_reverse, h.kinds_eq, List.append_nil]
  accept := by
    have haccept : StateKind.accept ≠ .entry := nofun
    exact (getElem?_kinds_reverse_iff haccept).mpr h.accept
  initial_eq := rfl
  finals_eq := by
    rw [← h.initial_eq]
    rfl
  numTransitions_eq := by
    rw [numTransitions_reverse, h.numTransitions_eq, h.finals_eq]
    rfl
  isPassage q hq := by
    have hintermediate : StateKind.intermediate ≠ .entry := nofun
    have hq' := (getElem?_kinds_reverse_iff hintermediate).mp hq
    have hlt : q < n.size := by
      rw [← length_kinds]
      exact (List.getElem?_eq_some_iff.mp hq').1
    refine (h.isPassage q hq').reverse hlt fun hfinal => ?_
    -- the only final state is that of acceptance
    rw [h.finals_eq, SortedSet.mem_singleton] at hfinal
    rw [hfinal, h.accept] at hq'
    cases hq'

/-- **The shape of the automaton of a grammar.** Where the grammar is right-linear, its
automaton has one state for each nonterminal, the start symbol first, one for acceptance and
those inside chains, and reading goes from the first to that of acceptance; its transitions are
those of chains, and one for each different production with a terminal or none. Where the
grammar is left-linear only, there is one more state, in which reading begins, and one more
transition, from there to acceptance, and reading ends in the state of the start symbol. -/
theorem shape_ofGrammar (g : Grammar) (options : Options) (n : Nfa)
    (h : ofGrammar g options = .ok n) :
    (g.IsRightLinear → Shape g n [] 0 g.nonterminals.size) ∧
    (¬ g.IsRightLinear → Shape g n [.entry] (g.nonterminals.size + 1 + g.chainStates) 0 ∧
      ⟨n.initial, .epsilon, g.nonterminals.size⟩ ∈ n.transitions) := by
  refine ⟨fun hright => ?_, fun hnot => ?_⟩
  · rw [ofGrammar_of_isRightLinear hright] at h
    obtain ⟨arcs, harcs, rfl⟩ := exists_of_map_eq_ok h
    exact shape_ofArcs harcs
  · have hleft : g.IsLeftLinear := by
      by_contra hnotLeft
      have hnotLinear : ¬ g.Linear := fun hlinear =>
        (Grammar.isRegular_iff.mpr hlinear).elim hnot hnotLeft
      rw [ofGrammar_of_not_linear hnotLinear] at h
      cases h
    rw [ofGrammar_of_isLeftLinear hnot hleft] at h
    obtain ⟨arcs, harcs, rfl⟩ := exists_of_map_eq_ok h
    have hshape := shape_ofArcs harcs
    have hreverse := hshape.reverse
    rw [hshape.size_eq] at hreverse
    refine ⟨hreverse, mem_transitions_reverse.mpr (.inl ⟨rfl, rfl, ?_⟩)⟩
    rw [hshape.finals_eq]
    exact SortedSet.mem_singleton.mpr rfl

/-- The left-linear sample, in which a production is listed twice, and the same grammar read from
right to left: two of its five productions are equal, and one has a chain of two transitions. -/
theorem shape_ofGrammar_leftSample :
    (¬ Dfa.leftSample.IsRightLinear ∧ ∃ n, ofGrammar Dfa.leftSample {} = .ok n ∧ n.size = 5 ∧
      n.numTransitions = 6 ∧ n.initial = 4 ∧ n.IsPassage 3 ∧ ⟨4, .epsilon, 2⟩ ∈ n.transitions) ∧
    Dfa.leftSample.reversed.IsRightLinear ∧
      ∃ n, ofGrammar Dfa.leftSample.reversed {} = .ok n ∧ n.size = 4 ∧ n.numTransitions = 5 ∧
        n.kinds = [.nonterminal 'S', .nonterminal 'A', .accept, .intermediate] := by
  refine ⟨?_, ?_⟩
  · have hnot : ¬ Dfa.leftSample.IsRightLinear := by decide +kernel
    obtain ⟨n, h⟩ := exists_ok_of_isOk (x := ofGrammar Dfa.leftSample {}) (by decide +kernel)
    obtain ⟨hshape, hentry⟩ := (shape_ofGrammar Dfa.leftSample {} n h).2 hnot
    have hinitial : n.initial = 4 := hshape.initial_eq
    refine ⟨hnot, n, h, hshape.size_eq, hshape.numTransitions_eq, hinitial, ?_, ?_⟩
    · exact hshape.isPassage 3 (by rw [hshape.kinds_eq]; rfl)
    · rw [hinitial] at hentry
      exact hentry
  · have hright : Dfa.leftSample.reversed.IsRightLinear := by decide +kernel
    obtain ⟨n, h⟩ :=
      exists_ok_of_isOk (x := ofGrammar Dfa.leftSample.reversed {}) (by decide +kernel)
    have hshape := (shape_ofGrammar Dfa.leftSample.reversed {} n h).1 hright
    exact ⟨hright, n, h, hshape.size_eq, hshape.numTransitions_eq, hshape.kinds_eq⟩

end Nfa

end GrammarAutomata
