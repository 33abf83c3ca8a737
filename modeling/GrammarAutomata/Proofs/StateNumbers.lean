import GrammarAutomata.Nfa.OfGrammar
import GrammarAutomata.Nfa.Reverse
import Mathlib.Data.List.Nodup

/-!
# Numbers and kinds of states

In the automaton of a grammar each nonterminal has one state, and its number is the
place of the nonterminal in the order of states (`Nfa.getElem?_kindsOf_nonterminal_iff`);
behind these comes the accepting state, and then come the states inside chains. Reversal
leaves the numbers as they are and adds one state at the end (`Nfa.kinds_reverse`).
-/

namespace GrammarAutomata

namespace Grammar

variable {g : Grammar} {a b : Char}

/-! ## The order of states -/

theorem mem_stateOrder_iff : a ∈ g.stateOrder ↔ a ∈ g.nonterminals := by
  simp only [stateOrder, List.mem_cons, List.mem_filter, decide_eq_true_eq]
  refine ⟨?_, fun ha => ?_⟩
  · rintro (rfl | ⟨ha, _⟩)
    · exact g.wellFormed.start_mem
    · exact ha
  · by_cases h : a = g.start
    · exact .inl h
    · exact .inr ⟨ha, h⟩

/-- No nonterminal has two states. -/
theorem nodup_stateOrder (g : Grammar) : g.stateOrder.Nodup := by
  refine List.nodup_cons.mpr ⟨fun h => ?_, (g.nonterminals.nodup_toList).filter _⟩
  simpa using (List.mem_filter.mp h).2

theorem stateOf_lt (ha : a ∈ g.nonterminals) : g.stateOf (some a) < g.acceptState :=
  List.idxOf_lt_length_of_mem (mem_stateOrder_iff.mpr ha)

@[simp] theorem stateOf_start : g.stateOf (some g.start) = 0 := List.idxOf_cons_self

/-- At the place of a nonterminal stands the nonterminal, and nowhere else. -/
theorem getElem?_stateOrder_iff {q : Nat} :
    g.stateOrder[q]? = some a ↔ a ∈ g.nonterminals ∧ q = g.stateOf (some a) := by
  refine ⟨fun hq => ?_, ?_⟩
  · obtain ⟨hlt, rfl⟩ := List.getElem?_eq_some_iff.mp hq
    refine ⟨mem_stateOrder_iff.mp (List.getElem_mem hlt), ?_⟩
    exact (g.nodup_stateOrder.idxOf_getElem q hlt).symm
  · rintro ⟨ha, rfl⟩
    exact List.getElem?_idxOf (mem_stateOrder_iff.mpr ha)

end Grammar

namespace Nfa

variable {g : Grammar} {arcs : List Arc} {n : Nfa} {a : Char} {q : Nat}

/-! ## The kinds of states -/

@[simp] theorem kinds_ofArcs : (ofArcs g arcs).kinds = kindsOf g arcs := kinds_ofTransitions

@[simp] theorem kinds_reverse : n.reverse.kinds = n.kinds ++ [.entry] := kinds_ofTransitions

/-- The state of a nonterminal is the only one of its kind. -/
theorem getElem?_kindsOf_nonterminal_iff :
    (kindsOf g arcs)[q]? = some (.nonterminal a) ↔
      a ∈ g.nonterminals ∧ q = g.stateOf (some a) := by
  rw [← Grammar.getElem?_stateOrder_iff, kindsOf, List.getElem?_append]
  split
  · simp
  · rename_i hle
    rw [List.length_map] at hle
    -- what follows the nonterminals is of other kinds
    have hnone : g.stateOrder[q]? = none := List.getElem?_eq_none (Nat.le_of_not_lt hle)
    refine iff_of_false (fun h => ?_) (by simp [hnone])
    have hmem := List.mem_of_getElem? h
    simp [List.mem_replicate] at hmem

theorem getElem?_kindsOf_accept_iff :
    (kindsOf g arcs)[q]? = some .accept ↔ q = g.stateOf none := by
  rw [kindsOf, List.getElem?_append, List.length_map]
  show _ ↔ q = g.stateOrder.length
  split
  · rename_i hlt
    refine iff_of_false (by simp) (Nat.ne_of_lt hlt)
  · rename_i hle
    -- of what follows the nonterminals the first is the accepting state
    obtain ⟨i, rfl⟩ := Nat.exists_eq_add_of_le (Nat.le_of_not_lt hle)
    rw [Nat.add_sub_cancel_left]
    cases i with
    | zero => simp
    | succ i => simp [List.getElem?_replicate]

/-- The state that reversal adds is the one in which reading begins. -/
theorem getElem?_kinds_reverse_initial : n.reverse.kinds[n.reverse.initial]? = some .entry := by
  rw [kinds_reverse, show n.reverse.initial = n.kinds.length from length_kinds.symm]
  exact List.getElem?_concat_length

/-- It adds none of another kind. -/
theorem getElem?_kinds_reverse_iff {kind : StateKind} (h : kind ≠ .entry) :
    n.reverse.kinds[q]? = some kind ↔ n.kinds[q]? = some kind := by
  rw [kinds_reverse, List.getElem?_append]
  split
  · exact Iff.rfl
  · rename_i hle
    refine iff_of_false (fun hq => h ?_) fun hq => hle (List.getElem?_eq_some_iff.mp hq).1
    exact List.mem_singleton.mp (List.mem_of_getElem? hq)

end Nfa

end GrammarAutomata
