import GrammarAutomata.Dfa.OfGrammar
import GrammarAutomata.Proofs.Items
import GrammarAutomata.Proofs.Renaming
import GrammarAutomata.Proofs.Twins

/-!
# Automata of renamed grammars

How a grammar is written down does not matter to what is made of it. With the order of
productions and of nonterminals the numbers of states change, and a production that is
listed several times has several chains; but every state has twins with the same item in
the automaton of the other grammar (`ArcsEmbed.twins`). So the deterministic automata have
one shape (`Dfa.ofGrammar_renamed`).
-/

namespace GrammarAutomata

/-- The item when nonterminals have other names. -/
def Item.rename (f : Char → Char) : Item → Item
  | .named b => .named (b.map f)
  | .inside arc i => .inside (arc.rename f) i

/-- Renaming an arc renames its items, one by one. -/
theorem Arc.item_rename {f : Char → Char} {arc : Arc} {i : Nat} :
    (arc.rename f).item i = (arc.item i).rename f := by
  cases i with
  | zero => rfl
  | succ i =>
    simp only [item, station, show (arc.rename f).inner = arc.inner from rfl]
    split <;> rfl

/-! ## States with the same item -/

/-- The arcs of the one automaton are found among those of the other under the names that
`f` gives. -/
structure ArcsEmbed (f : Char → Char) (g : Grammar) (arcs : List Arc) (g' : Grammar)
    (arcs' : List Arc) : Prop where
  /-- so are the grammars -/
  embeds : g.Embeds f g'
  /-- the arcs of the one lead between its nonterminals -/
  fits : ∀ arc ∈ arcs, arc.Fits g
  /-- and those of the other between its own -/
  fits' : ∀ arc ∈ arcs', arc.Fits g'
  /-- each arc is found -/
  rename_mem : ∀ arc ∈ arcs, arc.rename f ∈ arcs'

/-- The states have the same item, but for the names of nonterminals. -/
def SameItem (f : Char → Char) (g : Grammar) (arcs : List Arc) (g' : Grammar) (arcs' : List Arc)
    (p q : Nat) : Prop :=
  ∃ x, (items g arcs)[p]? = some x ∧ (items g' arcs')[q]? = some (x.rename f)

namespace ArcsEmbed

variable {f f' : Char → Char} {g g' : Grammar} {arcs arcs' : List Arc} {arc : Arc}
  {first first' i p q : Nat}

/-- At the same place of a chain of an arc and of one of the renamed arc the item is the
same. -/
theorem sameItem_laneState (h : ArcsEmbed f g arcs g' arcs')
    (hlane : (arc, first) ∈ lanes (g.acceptState + 1) arcs)
    (hlane' : (arc.rename f, first') ∈ lanes (g'.acceptState + 1) arcs') :
    SameItem f g arcs g' arcs' (laneState g arc first i) (laneState g' (arc.rename f) first' i) := by
  refine ⟨arc.item i, getElem?_items_laneState (h.fits arc (mem_of_mem_lanes hlane)) hlane, ?_⟩
  rw [getElem?_items_laneState (h.fits' _ (mem_of_mem_lanes hlane')) hlane', Arc.item_rename]

/-- A state with the same item as one on a chain of an arc is on a chain of the renamed
arc, and at the same place. -/
theorem exists_lane_of_sameItem (h : ArcsEmbed f g arcs g' arcs')
    (hlane : (arc, first) ∈ lanes (g.acceptState + 1) arcs)
    (hsame : SameItem f g arcs g' arcs' (laneState g arc first i) q) :
    ∃ first', (arc.rename f, first') ∈ lanes (g'.acceptState + 1) arcs' ∧
      q = laneState g' (arc.rename f) first' i := by
  have harc := mem_of_mem_lanes hlane
  obtain ⟨x, hx, hq⟩ := hsame
  rw [getElem?_items_laneState (h.fits arc harc) hlane] at hx
  obtain rfl := Option.some.inj hx
  rw [← Arc.item_rename] at hq
  exact exists_lane_of_item (h.rename_mem arc harc) hq

theorem exists_sameItem (h : ArcsEmbed f g arcs g' arcs') (hp : p < (Nfa.ofArcs g arcs).size) :
    ∃ q, SameItem f g arcs g' arcs' p q := by
  rw [← Nfa.length_items] at hp
  have hx := List.getElem?_eq_getElem hp
  generalize (items g arcs)[p] = x at hx
  cases x with
  | named b =>
    obtain ⟨hb, _⟩ := getElem?_items_named_iff.mp hx
    refine ⟨g'.stateOf (b.map f), _, hx, getElem?_items_named_iff.mpr ⟨fun c hc => ?_, rfl⟩⟩
    obtain ⟨a, ha, rfl⟩ := Option.map_eq_some_iff.mp hc
    exact h.embeds.nonterminal a (hb a ha)
  | inside arc i =>
    obtain ⟨first, hlane, hi, _⟩ := getElem?_items_inside_iff.mp hx
    obtain ⟨first', hlane'⟩ := exists_lane_of_mem (g'.acceptState + 1)
      (h.rename_mem arc (mem_of_mem_lanes hlane))
    exact ⟨first' + i, _, hx, getElem?_items_inside_iff.mpr ⟨first', hlane', hi, rfl⟩⟩

/-- The initial state is the only one with its item. -/
theorem eq_initial_of_sameItem (h : ArcsEmbed f g arcs g' arcs')
    (hsame : SameItem f g arcs g' arcs' 0 q) : q = 0 := by
  obtain ⟨x, hx, hq⟩ := hsame
  have hstart : (items g arcs)[0]? = some (.named (some g.start)) := by
    refine getElem?_items_named_iff.mpr ⟨fun a ha => ?_, Grammar.stateOf_start.symm⟩
    exact Option.mem_some_iff.mp ha ▸ g.wellFormed.start_mem
  obtain rfl := Option.some.inj (hstart.symm.trans hx)
  rw [Item.rename, Option.map_some, ← h.embeds.start] at hq
  rw [(getElem?_items_named_iff.mp hq).2, Grammar.stateOf_start]

/-- So is the accepting one. -/
theorem eq_acceptState_of_sameItem (hsame : SameItem f g arcs g' arcs' g.acceptState q) :
    q = g'.acceptState := by
  obtain ⟨x, hx, hq⟩ := hsame
  have haccept : (items g arcs)[g.acceptState]? = some (.named none) :=
    getElem?_items_named_iff.mpr ⟨nofun, rfl⟩
  obtain rfl := Option.some.inj (haccept.symm.trans hx)
  exact (getElem?_items_named_iff.mp hq).2

/-- A step along the chain of an arc is a step along each chain of the renamed arc. -/
theorem follows (h : ArcsEmbed f g arcs g' arcs') :
    (Nfa.ofArcs g arcs).Follows (Nfa.ofArcs g' arcs') (SameItem f g arcs g' arcs') where
  lt_size := by
    rintro p q ⟨x, hp, hq⟩
    rw [← Nfa.length_items, ← Nfa.length_items]
    exact ⟨(List.getElem?_eq_some_iff.mp hp).1, (List.getElem?_eq_some_iff.mp hq).1⟩
  exists_twin p hp := h.exists_sameItem hp
  initial q hsame := h.eq_initial_of_sameItem hsame
  final p q hsame hp := by
    obtain rfl := SortedSet.mem_singleton.mp hp
    exact SortedSet.mem_singleton.mpr (eq_acceptState_of_sameItem hsame)
  forth p q l p' hsame ht := by
    obtain ⟨arc, first, i, l', hlane, hl, heq⟩ := Nfa.mem_transitions_ofArcs_iff.mp ht
    cases heq
    obtain ⟨first', hlane', rfl⟩ := h.exists_lane_of_sameItem hlane hsame
    exact ⟨_, h.sameItem_laneState hlane hlane',
      Nfa.mem_transitions_ofArcs_iff.mpr ⟨arc.rename f, first', i, l, hlane', hl, rfl⟩⟩
  back p l p' q' hsame ht := by
    obtain ⟨arc, first, i, l', hlane, hl, heq⟩ := Nfa.mem_transitions_ofArcs_iff.mp ht
    cases heq
    obtain ⟨first', hlane', rfl⟩ := h.exists_lane_of_sameItem hlane hsame
    exact ⟨_, h.sameItem_laneState hlane hlane',
      Nfa.mem_transitions_ofArcs_iff.mpr ⟨arc.rename f, first', i, l, hlane', hl, rfl⟩⟩

/-- A state that exists has the item of a nonterminal of the grammar or of an arc, so
undoing the renaming gives the item back. -/
theorem rename_rename (h : ArcsEmbed f g arcs g' arcs') (hf : ∀ a ∈ g.nonterminals, f' (f a) = a)
    {x : Item} (hx : (items g arcs)[p]? = some x) : (x.rename f).rename f' = x := by
  cases x with
  | named b =>
    obtain ⟨hb, _⟩ := getElem?_items_named_iff.mp hx
    cases b with
    | none => rfl
    | some a => exact congrArg (fun a => Item.named (some a)) (hf a (hb a rfl))
  | inside arc i =>
    obtain ⟨first, hlane, _, _⟩ := getElem?_items_inside_iff.mp hx
    rw [Item.rename, Item.rename, Arc.rename_rename hf (h.fits arc (mem_of_mem_lanes hlane))]

theorem sameItem_back (h : ArcsEmbed f g arcs g' arcs') (hf : ∀ a ∈ g.nonterminals, f' (f a) = a)
    (hsame : SameItem f g arcs g' arcs' p q) : SameItem f' g' arcs' g arcs q p := by
  obtain ⟨x, hx, hq⟩ := hsame
  exact ⟨x.rename f, hq, hx.trans (congrArg some (h.rename_rename hf hx).symm)⟩

/-- Where the renaming can be undone, the automata follow each other. -/
theorem twins (h : ArcsEmbed f g arcs g' arcs') (h' : ArcsEmbed f' g' arcs' g arcs)
    (hf : ∀ a ∈ g.nonterminals, f' (f a) = a) (hf' : ∀ b ∈ g'.nonterminals, f (f' b) = b) :
    (Nfa.ofArcs g arcs).Twins (Nfa.ofArcs g' arcs') (SameItem f g arcs g' arcs') := by
  refine ⟨h.embeds.terminals.symm, h.follows, ?_⟩
  have hswap : (fun q p => SameItem f g arcs g' arcs' p q) = SameItem f' g' arcs' g arcs := by
    funext q p
    exact propext ⟨h.sameItem_back hf, h'.sameItem_back hf'⟩
  rw [hswap]
  exact h'.follows

end ArcsEmbed

/-! ## Grammars -/

namespace Grammar

variable {f : Char → Char} {g g' : Grammar} {units : UnitProductions} {direction : Direction}
  {arcs arcs' : List Arc}

theorem Embeds.arcsEmbed (h : Embeds f g g') (harcs : g.arcs units direction = .ok arcs)
    (harcs' : g'.arcs units direction = .ok arcs') : ArcsEmbed f g arcs g' arcs' :=
  ⟨h, fits_of_mem_arcs harcs, fits_of_mem_arcs harcs', h.rename_mem_arcs harcs harcs'⟩

theorem Renames.twins_ofArcs (h : Renames f g g') (harcs : g.arcs units direction = .ok arcs)
    (harcs' : g'.arcs units direction = .ok arcs') :
    (Nfa.ofArcs g arcs).Twins (Nfa.ofArcs g' arcs') (SameItem f g arcs g' arcs') := by
  obtain ⟨f', hback, hf, hf'⟩ := h.exists_back
  exact (h.embeds.arcsEmbed harcs harcs').twins (hback.arcsEmbed harcs' harcs) hf hf'

end Grammar

namespace Nfa

variable {f : Char → Char} {g g' : Grammar} {options : Options} {n n' : Nfa}

/-- The automata of a grammar and of the renamed one are twins. -/
theorem exists_twins_of_ofGrammar (h : g.Renames f g') (hn : ofGrammar g options = .ok n)
    (hn' : ofGrammar g' options = .ok n') : ∃ R, n.Twins n' R := by
  by_cases hright : g.IsRightLinear
  · rw [ofGrammar_of_isRightLinear hright] at hn
    rw [ofGrammar_of_isRightLinear (h.isRightLinear_iff.mp hright)] at hn'
    obtain ⟨arcs, harcs, rfl⟩ := exists_of_map_eq_ok hn
    obtain ⟨arcs', harcs', rfl⟩ := exists_of_map_eq_ok hn'
    exact ⟨_, h.twins_ofArcs harcs harcs'⟩
  · have hlinear : g.Linear := by
      by_contra hnot
      rw [ofGrammar_of_not_linear hnot] at hn
      cases hn
    have hleft : g.IsLeftLinear := (Grammar.isRegular_iff.mpr hlinear).resolve_left hright
    rw [ofGrammar_of_isLeftLinear hright hleft] at hn
    rw [ofGrammar_of_isLeftLinear (mt h.isRightLinear_iff.mpr hright)
      (h.isLeftLinear_iff.mp hleft)] at hn'
    obtain ⟨arcs, harcs, rfl⟩ := exists_of_map_eq_ok hn
    obtain ⟨arcs', harcs', rfl⟩ := exists_of_map_eq_ok hn'
    exact ⟨_, (h.twins_ofArcs harcs harcs').reverse⟩

end Nfa

namespace Dfa

/-- **How a grammar is written down does not matter.** With its nonterminals renamed and
its productions listed in any order and any number of times, it is refused as before, or
its automaton has as many states as before, which accept alike and lead to the states of
the same numbers. -/
theorem ofGrammar_renamed (f : Char → Char) (g g' : Grammar) (options : Options)
    (h : g.Renames f g') : SameOutcome (ofGrammar g options) (ofGrammar g' options) := by
  unfold ofGrammar
  by_cases hlinear : g.Linear
  · have hlinear' := h.linear_iff.mp hlinear
    -- the one automaton fails for a production that offends, and then so does the other
    cases hn : Nfa.ofGrammar g options with
    | error e =>
      obtain ⟨index, p, reason, rfl, hfirst⟩ := (Nfa.ofGrammar_eq_error_iff hlinear).mp hn
      obtain ⟨index', p', reason', hn'⟩ := h.embeds.exists_malformed hlinear'
        (List.mem_of_getElem? hfirst.listed) hfirst.offends
      rw [hn']
      exact .malformedProduction index index' p p' reason reason'
    | ok n =>
      cases hn' : Nfa.ofGrammar g' options with
      | error e =>
        obtain ⟨index, p, reason, rfl, hfirst⟩ := (Nfa.ofGrammar_eq_error_iff hlinear').mp hn'
        obtain ⟨f', hback, _⟩ := h.exists_back
        obtain ⟨_, _, _, herror⟩ := hback.exists_malformed hlinear
          (List.mem_of_getElem? hfirst.listed) hfirst.offends
        cases hn.symm.trans herror
      | ok n' =>
        obtain ⟨R, htwins⟩ := Nfa.exists_twins_of_ofGrammar h hn hn'
        exact sameOutcome_ofNfaWith htwins options
  · rw [Nfa.ofGrammar_of_not_linear hlinear,
      Nfa.ofGrammar_of_not_linear (mt h.linear_iff.mpr hlinear)]
    exact .unsupportedClass .contextFree

/-- A left-linear grammar with chains and a unit production. -/
def plainSample : Grammar where
  nonterminals := {'A', 'B', 'S'}
  terminals := {'a', 'b'}
  start := 'S'
  productions := [⟨'S', ['A', 'a', 'b']⟩, ⟨'A', ['B']⟩, ⟨'B', ['S', 'b', 'b', 'a']⟩, ⟨'A', ['a']⟩]
  wellFormed := Draft.defect?_eq_none_iff.mp (by decide)

/-- The same grammar under other names, two of which have changed their order, and with
productions that are listed twice. -/
def renamedSample : Grammar where
  nonterminals := {'C', 'Z', 'S'}
  terminals := {'a', 'b'}
  start := 'C'
  productions := [⟨'Z', ['a']⟩, ⟨'S', ['C', 'b', 'b', 'a']⟩, ⟨'C', ['Z', 'a', 'b']⟩, ⟨'Z', ['S']⟩,
    ⟨'S', ['C', 'b', 'b', 'a']⟩, ⟨'Z', ['a']⟩]
  wellFormed := Draft.defect?_eq_none_iff.mp (by decide)

/-- The other names. -/
def sampleNames : Char → Char
  | 'S' => 'C'
  | 'A' => 'Z'
  | 'B' => 'S'
  | c => c

/-- The second goes more chains, and still the deterministic automata have one shape. -/
theorem ofGrammar_renamed_samples : plainSample.Renames sampleNames renamedSample ∧
    ∃ d d', ofGrammar plainSample {} = .ok d ∧ ofGrammar renamedSample {} = .ok d' ∧
      SameShape d d' := by
  have hrenames : plainSample.Renames sampleNames renamedSample := by
    have hnonterminals : renamedSample.nonterminals =
        .ofList (plainSample.nonterminals.toList.map sampleNames) := by decide
    have hnodup : (plainSample.nonterminals.toList.map sampleNames).Nodup := by decide
    have hterminals : plainSample.terminals.toList.map sampleNames =
        plainSample.terminals.toList.map id := by decide
    have hproductions : ∀ p ∈ renamedSample.productions,
        ∃ q ∈ plainSample.productions, q.rename sampleNames = p := by decide
    have hproduction : ∀ q ∈ plainSample.productions,
        q.rename sampleNames ∈ renamedSample.productions := by decide
    refine ⟨fun a ha b hb => List.inj_on_of_nodup_map hnodup ha hb,
      List.map_inj_left.mp hterminals, rfl, fun b => ?_, rfl, fun p => ⟨hproductions p, ?_⟩⟩
    · rw [hnonterminals, SortedSet.mem_ofList]
      exact List.mem_map
    · rintro ⟨q, hq, rfl⟩
      exact hproduction q hq
  have houtcome := ofGrammar_renamed sampleNames plainSample renamedSample {} hrenames
  obtain ⟨d, hd⟩ := exists_ok_of_isOk (x := ofGrammar plainSample {}) (by decide +kernel)
  obtain ⟨d', hd'⟩ := exists_ok_of_isOk (x := ofGrammar renamedSample {}) (by decide +kernel)
  rw [hd, hd'] at houtcome
  cases houtcome with
  | ok hshape => exact ⟨hrenames, d, d', hd, hd', hshape⟩

end Dfa

end GrammarAutomata
