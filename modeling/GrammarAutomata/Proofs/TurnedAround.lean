import GrammarAutomata.Proofs.Listings
import GrammarAutomata.Proofs.Lookups

/-!
# What reversal changes and what it keeps

Reversal keeps the states and adds one, in which reading begins; it turns each transition
around, and the new ones lead from the new state to those that were final. These facts
(`Nfa.TurnedAround`) leave nothing open: the reversed automaton is the only one of which they
hold (`Nfa.reverse_turns_around`). So no transition is lost, none is made up, and none falls
together with another, and they can be counted (`Nfa.numTransitions_reverse`).
-/

namespace GrammarAutomata.Nfa

variable {n r r' : Nfa} {p q : Nat} {l : Label} {t : Transition}

/-- Turned around they are as many, and there is one more to each former final state. -/
theorem numTransitions_reverse (n : Nfa) :
    n.reverse.numTransitions = n.numTransitions + n.finals.size := by
  have hentries : n.entryTransitions.Nodup :=
    List.Nodup.map (fun p q heq => congrArg Transition.target heq) n.finals.nodup_toList
  have hflipped : (n.transitions.map Transition.flipped).Nodup :=
    List.Nodup.map (fun s t heq => congrArg Transition.flipped heq) n.nodup_transitions
  have hnodup : n.reversedTransitions.Nodup := by
    refine List.nodup_append.mpr ⟨hentries, hflipped, fun s hs t ht heq => ?_⟩
    obtain ⟨q, _, rfl⟩ := List.mem_map.mp hs
    obtain ⟨r, hr, rfl⟩ := List.mem_map.mp ht
    -- no former transition ends in the new state
    have hlt := lt_size_of_mem_transitions hr
    exact absurd (congrArg Transition.source heq).symm (Nat.ne_of_lt hlt)
  have hmem (t : Transition) : t ∈ n.reverse.transitions ↔ t ∈ n.reversedTransitions :=
    mem_transitions_ofTransitions
  rw [NfaStore.numTransitions_eq_length hnodup hmem, reversedTransitions, List.length_append,
    entryTransitions, List.length_map, List.length_map, Nat.add_comm]
  rfl

/-- The automaton `r` is `n` turned around, with a new state in which reading begins. -/
structure TurnedAround (n r : Nfa) : Prop where
  /-- there is one state more -/
  size_eq : r.size = n.size + 1
  /-- the others are of the kinds they were -/
  kind_eq : ∀ q < n.size, r.kinds[q]? = n.kinds[q]?
  /-- the new one is there for reading to begin in it -/
  kind_new : r.kinds[n.size]? = some .entry
  /-- the input symbols are the same -/
  alphabet_eq : r.alphabet = n.alphabet
  /-- reading begins in the new state -/
  initial_eq : r.initial = n.size
  /-- reading ends where it began before -/
  finals_eq : r.finals = {n.initial}
  /-- between former states the same labels lead back -/
  mem_targets_iff : ∀ p < n.size, ∀ q < n.size, ∀ l, q ∈ n.targets p l ↔ p ∈ r.targets q l
  /-- the new state is left without reading, to where reading ended before, and never
  entered -/
  touching_iff : ∀ t : Transition, t ∈ r.transitions ∧ (t.source = n.size ∨ t.target = n.size) ↔
    ∃ f ∈ n.finals, t = ⟨n.size, .epsilon, f⟩
  /-- there is one transition more for each state that was final -/
  numTransitions_eq : r.numTransitions = n.numTransitions + n.finals.size

theorem turnedAround_reverse (n : Nfa) : TurnedAround n n.reverse where
  size_eq := size_reverse
  kind_eq q hq := by
    rw [kinds_reverse]
    exact List.getElem?_append_left (by rwa [length_kinds])
  kind_new := getElem?_kinds_reverse_initial
  alphabet_eq := rfl
  initial_eq := rfl
  finals_eq := rfl
  mem_targets_iff p _ q hq l := by
    rw [mem_targets, mem_targets, mem_transitions_reverse]
    exact (or_iff_right fun h => absurd h.1 (Nat.ne_of_lt hq)).symm
  touching_iff t := by
    obtain ⟨p, l, q⟩ := t
    rw [mem_transitions_reverse]
    refine ⟨?_, ?_⟩
    · rintro ⟨⟨rfl, rfl, hf⟩ | h, htouch⟩
      · exact ⟨q, hf, rfl⟩
      · -- no former transition touches the new state
        rcases htouch with rfl | rfl
        · exact absurd (lt_size_of_mem_transitions h) (Nat.lt_irrefl _)
        · exact absurd (source_lt h) (Nat.lt_irrefl _)
    · rintro ⟨f, hf, heq⟩
      cases heq
      exact ⟨.inl ⟨rfl, rfl, hf⟩, .inl rfl⟩
  numTransitions_eq := numTransitions_reverse n

/-- All transitions are known from those that touch the new state and those that do not. -/
theorem TurnedAround.mem_transitions_iff (h : TurnedAround n r) :
    t ∈ r.transitions ↔ (∃ f ∈ n.finals, t = ⟨n.size, .epsilon, f⟩) ∨ t.flipped ∈ n.transitions := by
  have hinner (hsource : t.source < n.size) (htarget : t.target < n.size) :
      t.flipped ∈ n.transitions ↔ t ∈ r.transitions := by
    have hiff := h.mem_targets_iff t.target htarget t.source hsource t.label
    rwa [mem_targets, mem_targets] at hiff
  refine ⟨fun ht => ?_, ?_⟩
  · by_cases htouch : t.source = n.size ∨ t.target = n.size
    · exact .inl ((h.touching_iff t).mp ⟨ht, htouch⟩)
    · have hsource := source_lt ht
      have htarget := lt_size_of_mem_transitions ht
      rw [h.size_eq] at hsource htarget
      exact .inr ((hinner (by omega) (by omega)).mpr ht)
  · rintro (hentry | ht)
    · exact ((h.touching_iff t).mpr hentry).1
    · exact (hinner (lt_size_of_mem_transitions ht) (source_lt ht)).mp ht

/-- There is one automaton that is `n` turned around. -/
theorem TurnedAround.unique (h : TurnedAround n r) (h' : TurnedAround n r') : r = r' := by
  refine eq_of_mem_transitions_iff (List.ext_getElem? fun q => ?_)
    (fun t => h.mem_transitions_iff.trans h'.mem_transitions_iff.symm)
    (h.alphabet_eq.trans h'.alphabet_eq.symm) (h.initial_eq.trans h'.initial_eq.symm)
    (h.finals_eq.trans h'.finals_eq.symm)
  rcases Nat.lt_trichotomy q n.size with hlt | rfl | hgt
  · exact (h.kind_eq q hlt).trans (h'.kind_eq q hlt).symm
  · exact h.kind_new.trans h'.kind_new.symm
  · rw [List.getElem?_eq_none, List.getElem?_eq_none]
    · rw [length_kinds, h'.size_eq]
      exact hgt
    · rw [length_kinds, h.size_eq]
      exact hgt

/-- **Reversal turns an automaton around.** Built up transition by transition, with no
look-up in vain, the reversed automaton is the one that has the same states and one more, in
which reading begins, every transition turned around, and besides only those that lead from
the new state to where reading ended before. -/
theorem reverse_turns_around (n : Nfa) :
    n.reverse? = some n.reverse ∧ ∀ r, TurnedAround n r ↔ r = n.reverse := by
  refine ⟨reverse?_eq n, fun r => ⟨?_, ?_⟩⟩
  · intro h
    exact h.unique (turnedAround_reverse n)
  · rintro rfl
    exact turnedAround_reverse n

end GrammarAutomata.Nfa
