import GrammarAutomata.Nfa.Store
import Mathlib.Data.List.Dedup

/-!
# What a store lists

The transitions of a store are listed in two ways: all of them in a row, and state by
state with the targets of each label. The row has each transition once, so they can be
counted on any other list that has the same, and each of them once
(`NfaStore.numTransitions_eq_length`). State by state the entries are listed as they are
found (`NfaStore.mem_transitionsFrom_iff`), labels in their order
(`NfaStore.pairwise_transitionsFrom`).
-/

namespace GrammarAutomata.NfaStore

variable {s : NfaStore} {q : Nat} {l : Label} {set : SortedSet Nat}

/-! ## All transitions -/

theorem nodup_transitions (s : NfaStore) : s.transitions.Nodup := by
  refine List.nodup_flatMap.mpr ⟨fun q _ => ?_, ?_⟩
  · refine List.Nodup.map (fun m m' heq => ?_) (s.moves q).nodup_toList
    exact congrArg Transition.move heq
  · refine List.nodup_range.imp fun hne t ht ht' => hne ?_
    -- the source tells from which state a transition was listed
    obtain ⟨m, _, rfl⟩ := List.mem_map.mp ht
    obtain ⟨m', _, heq⟩ := List.mem_map.mp ht'
    exact (congrArg Transition.source heq).symm

/-- Transitions can be counted on any list that has each of them once. -/
theorem numTransitions_eq_length {ts : List Transition} (hts : ts.Nodup)
    (h : ∀ t, t ∈ s.transitions ↔ t ∈ ts) : s.numTransitions = ts.length :=
  ((List.perm_ext_iff_of_nodup s.nodup_transitions hts).mpr h).length_eq

/-! ## The transitions of a state -/

/-- The transitions from a state with one label are as many as its targets. -/
theorem nodup_map_targets (s : NfaStore) (q : Nat) (l : Label) :
    ((s.targets q l).toList.map fun r => (⟨q, l, r⟩ : Transition)).Nodup :=
  List.Nodup.map (fun _ _ heq => congrArg Transition.target heq) (s.targets q l).nodup_toList

/-- State by state a label is listed with what is found for it, if anything is. -/
theorem mem_transitionsFrom_iff : (l, set) ∈ s.transitionsFrom q ↔ s.targets? q l = some set :=
  SortedMap.mem_entries_iff

/-- Labels are listed in their order, each once. -/
theorem pairwise_transitionsFrom (s : NfaStore) (q : Nat) :
    (s.transitionsFrom q).Pairwise fun e e' => e.1.Before e'.1 :=
  (s.moves q).sorted.imp Label.compare_eq_lt_iff.mp

end GrammarAutomata.NfaStore
