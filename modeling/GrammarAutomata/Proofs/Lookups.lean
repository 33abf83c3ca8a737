import GrammarAutomata.Dfa.OfNfa
import GrammarAutomata.Nfa.Drawing
import GrammarAutomata.Proofs.Names

/-!
# Look-ups of states

The states of an automaton are known by their numbers, and a number may be that of no
state. What an automaton is used for here looks its states up one by one, and has no result
if one of them is missing: adding a transition or a final state, reversal (`reverse?`),
closures and steps (`closure?`, `step?`), names of sets (`subsetName?`), drawing (`toDot?`).

Since all numbers that an automaton holds are those of its states, nothing is missing, and
the results are what the total functions give (`reverse?_eq`, `closure?_eq`, `step?_eq`,
`subsetName?_eq`, `toDot?_eq`). An automaton that is built up state by state and transition
by transition is described by what has been added (`Grows`).
-/

namespace GrammarAutomata

/-! ## Several look-ups -/

section

variable {α β : Type} {f : α → Option β} {l : List α}

/-- If all look-ups succeed, nothing is missing among what is found. -/
theorem mapM_eq_filterMap (h : ∀ x ∈ l, ∃ y, f x = some y) : l.mapM f = some (l.filterMap f) := by
  induction l with
  | nil => rfl
  | cons x l ih =>
    obtain ⟨y, hy⟩ := h x List.mem_cons_self
    rw [List.mapM_cons, hy, ih fun z hz => h z (List.mem_cons_of_mem _ hz),
      List.filterMap_cons_some hy]
    rfl

theorem mapM_eq_map {g : α → β} (h : ∀ x ∈ l, f x = some (g x)) : l.mapM f = some (l.map g) := by
  rw [mapM_eq_filterMap fun x hx => ⟨g x, h x hx⟩, List.filterMap_eq_map_iff_forall_eq_some.mpr h]

end

/-! ## Searches in which a look-up can fail -/

namespace Space

variable {α : Type} [Ord α] [Std.TransOrd α] [Std.LawfulEqOrd α] {S : Space α}
  {look : α → Option (List α)} {hlook : ∀ x l, look x = some l → l = S.succ x}

/-- The search goes on as long as successors are found when they are looked up. -/
def exploreFrom? (S : Space α) (look : α → Option (List α))
    (hlook : ∀ x l, look x = some l → l = S.succ x) (known : Numbering α) (next : Nat)
    (h : S.Contains known) : Option (Numbering α) :=
  match hx : known.get? next with
  | none => some known
  | some x =>
    match hl : look x with
    | none => none
    | some l =>
      exploreFrom? S look hlook (known.addAll l) (next + 1) (hlook x l hl ▸ h.addAll hx)
termination_by S.bound () - next
decreasing_by
  have hlt := Numbering.lt_size_of_get? hx
  have hle := h.size_le
  omega

/-- The search from the sources. -/
def explore? (S : Space α) (look : α → Option (List α))
    (hlook : ∀ x l, look x = some l → l = S.succ x) (sources : List α)
    (h : ∀ x ∈ sources, S.Mem x) : Option (Numbering α) :=
  S.exploreFrom? look hlook (Numbering.empty.addAll sources) 0 (contains_addAll_empty h)

/-- If successors are found for all elements of the space, it goes on to the end. -/
theorem exploreFrom?_eq (hall : ∀ x, S.Mem x → look x = some (S.succ x)) {known : Numbering α}
    {next : Nat} (h : S.Contains known) :
    S.exploreFrom? look hlook known next h = some (S.exploreFrom none known next h) := by
  fun_induction exploreFrom? S look hlook known next h with
  | case1 known next h hnone => rw [exploreFrom_of_get?_eq_none h hnone]
  | case2 known next h x hx hnone =>
    cases hnone.symm.trans (hall x (h x (Numbering.mem_of_get? hx)))
  | case3 known next h x hx l hl ih =>
    obtain rfl := hlook x l hl
    rw [ih, exploreFrom_of_get?_eq_some h hx]
    rfl

theorem explore?_eq (hall : ∀ x, S.Mem x → look x = some (S.succ x)) {sources : List α}
    (h : ∀ x ∈ sources, S.Mem x) :
    S.explore? look hlook sources h = some (S.explore none sources h) := exploreFrom?_eq hall _

end Space

namespace Nfa

variable {n m r : Nfa} {t : Transition} {ts ts' : List Transition} {kinds kinds' : List StateKind}
  {q : Nat} {set : SortedSet Nat} {c : Char} {sources : List Nat}

/-! ## Building an automaton up -/

/-- The automaton `m` is `n` with further states, of the given kinds, and further
transitions. -/
structure Grows (n m : Nfa) (kinds : List StateKind) (transitions : List Transition) : Prop where
  /-- the new states are numbered behind those there were -/
  kinds_eq : m.kinds = n.kinds ++ kinds
  /-- there are the transitions that there were and the new ones -/
  mem_iff : ∀ t, t ∈ m.transitions ↔ t ∈ n.transitions ∨ t ∈ transitions
  /-- the rest is as it was -/
  alphabet : m.alphabet = n.alphabet
  /-- the initial state too -/
  initial : m.initial = n.initial
  /-- and the final states -/
  finals : m.finals = n.finals

theorem Grows.refl (n : Nfa) : n.Grows n [] [] :=
  ⟨(List.append_nil _).symm, fun _ => (or_iff_left List.not_mem_nil).symm, rfl, rfl, rfl⟩

theorem Grows.size_eq (h : n.Grows m kinds ts) : m.size = n.size + kinds.length := by
  rw [← length_kinds, h.kinds_eq, List.length_append, length_kinds]

theorem Grows.trans (h : n.Grows m kinds ts) (h' : m.Grows r kinds' ts') :
    n.Grows r (kinds ++ kinds') (ts ++ ts') where
  kinds_eq := by rw [h'.kinds_eq, h.kinds_eq, List.append_assoc]
  mem_iff t := by rw [h'.mem_iff, h.mem_iff, List.mem_append, or_assoc]
  alphabet := h'.alphabet.trans h.alphabet
  initial := h'.initial.trans h.initial
  finals := h'.finals.trans h.finals

theorem grows_addState (n : Nfa) (kind : StateKind) : n.Grows (n.addState kind) [kind] [] where
  kinds_eq := NfaStore.kinds_addState
  mem_iff _ := NfaStore.mem_transitions_addState.trans (or_iff_left List.not_mem_nil).symm
  alphabet := rfl
  initial := rfl
  finals := rfl

/-- Add a transition, if both its ends exist. -/
def addTransition? (n : Nfa) (t : Transition) : Option Nfa :=
  if h : t.source < n.size ∧ t.target < n.size then some (n.addTransition t h.1 h.2) else none

/-- Add several transitions. -/
def addTransitions? (n : Nfa) (ts : List Transition) : Option Nfa := ts.foldlM addTransition? n

/-- Let reading begin in `q`, if it exists. -/
def setInitial? (n : Nfa) (q : Nat) : Option Nfa :=
  if h : q < n.size then some (n.setInitial q h) else none

/-- Make `q` a final state, if it exists. -/
def addFinal? (n : Nfa) (q : Nat) : Option Nfa :=
  if h : q < n.size then some (n.addFinal q h) else none

/-- The first final state is the only one. -/
theorem finals_addFinal (h : n.finals = ∅) (hq : q < n.size) : (n.addFinal q hq).finals = {q} := by
  refine SortedSet.ext fun p => ?_
  show p ∈ insert q n.finals ↔ p ∈ ({q} : SortedSet Nat)
  rw [h, SortedSet.mem_insert, SortedSet.mem_singleton]
  exact or_iff_left (SortedSet.not_mem_empty p)

theorem exists_addTransition? (hs : t.source < n.size) (ht : t.target < n.size) :
    ∃ m, n.addTransition? t = some m ∧ n.Grows m [] [t] := by
  refine ⟨n.addTransition t hs ht, dif_pos ⟨hs, ht⟩, ?_, fun s => ?_, rfl, rfl, rfl⟩
  · exact (List.append_nil _).symm
  · rw [List.mem_singleton, or_comm]
    exact NfaStore.mem_transitions_addTransition (n.wellFormed.size_rows ▸ hs)

theorem exists_addTransitions? (h : ∀ t ∈ ts, t.source < n.size ∧ t.target < n.size) :
    ∃ m, n.addTransitions? ts = some m ∧ n.Grows m [] ts := by
  induction ts generalizing n with
  | nil => exact ⟨n, rfl, .refl n⟩
  | cons t ts ih =>
    obtain ⟨hs, ht⟩ := h t List.mem_cons_self
    obtain ⟨m, hm, hgrows⟩ := exists_addTransition? hs ht
    have hsize : m.size = n.size := hgrows.size_eq
    obtain ⟨r, hr, hgrows'⟩ := ih (n := m) fun s hmem => by
      rw [hsize]
      exact h s (List.mem_cons_of_mem _ hmem)
    refine ⟨r, ?_, hgrows.trans hgrows'⟩
    rw [addTransitions?, List.foldlM_cons, hm]
    exact hr

/-! ## Reversal -/

/-- The states of `n` without transitions. -/
def bare (n : Nfa) : Nfa :=
  ofTransitions n.kinds n.alphabet n.initial ∅ [] (by rw [length_kinds]; exact n.initial_lt)
    (fun q hq => absurd hq (SortedSet.not_mem_empty q)) nofun

/-- The transitions, looked up state by state. -/
def transitions? (n : Nfa) : Option (List Transition) :=
  ((List.range n.size).mapM fun q => n.rows[q]?.map fun moves =>
    moves.toList.map fun m => ⟨q, m.label, m.target⟩).map List.flatten

/-- The reversed automaton, built up transition by transition. -/
def reverse? (n : Nfa) : Option Nfa := do
  let transitions ← n.transitions?
  let turned ← n.bare.addTransitions? (transitions.map Transition.flipped)
  let entered ← (turned.addState .entry).addTransitions?
    (n.finals.toList.map fun q => ⟨turned.size, .epsilon, q⟩)
  let begun ← entered.setInitial? turned.size
  begun.addFinal? n.initial

/-- A state that exists has its row of moves. -/
theorem getElem?_rows (h : q < n.size) : n.rows[q]? = some (n.moves q) := by
  rw [← n.wellFormed.size_rows] at h
  rw [NfaStore.moves, Array.getElem?_eq_getElem h]
  rfl

theorem transitions?_eq (n : Nfa) : n.transitions? = some n.transitions := by
  have hlookup : ∀ q ∈ List.range n.size, (n.rows[q]?.map fun moves =>
      moves.toList.map fun m => (⟨q, m.label, m.target⟩ : Transition)) =
        some ((n.moves q).toList.map fun m => ⟨q, m.label, m.target⟩) := by
    intro q hq
    rw [getElem?_rows (List.mem_range.mp hq)]
    rfl
  rw [transitions?, mapM_eq_map hlookup, NfaStore.transitions, n.wellFormed.size_rows]
  rfl

/-- Reversal never looks for a state that does not exist. -/
theorem reverse?_eq (n : Nfa) : n.reverse? = some n.reverse := by
  have hbare : n.bare.size = n.size := by rw [← length_kinds, bare, kinds_ofTransitions, length_kinds]
  have hflipped : ∀ t ∈ n.transitions.map Transition.flipped,
      t.source < n.bare.size ∧ t.target < n.bare.size := by
    intro t ht
    obtain ⟨s, hs, rfl⟩ := List.mem_map.mp ht
    rw [hbare]
    exact ⟨lt_size_of_mem_transitions hs, source_lt hs⟩
  obtain ⟨turned, hturned, hgrows⟩ := exists_addTransitions? hflipped
  have hsize : turned.size = n.size := hgrows.size_eq.trans hbare
  replace hgrows := hgrows.trans (turned.grows_addState .entry)
  have hbegin : ∀ t ∈ n.entryTransitions,
      t.source < (turned.addState .entry).size ∧ t.target < (turned.addState .entry).size := by
    intro t ht
    obtain ⟨q, hq, rfl⟩ := List.mem_map.mp ht
    rw [hgrows.size_eq, hbare]
    exact ⟨Nat.lt_succ_self _, Nat.lt_succ_of_lt (n.finals_lt q hq)⟩
  obtain ⟨entered, hentered, hgrows'⟩ := exists_addTransitions? hbegin
  replace hgrows := hgrows.trans hgrows'
  have hentry : turned.size < entered.size := by
    rw [hgrows.size_eq, hbare, hsize]
    exact Nat.lt_succ_self _
  have hold : n.initial < (entered.setInitial turned.size hentry).size :=
    Nat.lt_trans (hsize ▸ n.initial_lt) hentry
  -- all look-ups succeed, and what has been built up shows the same as the reversed automaton
  have hbuilt : n.reverse? =
      some ((entered.setInitial turned.size hentry).addFinal n.initial hold) := by
    have hts : n.finals.toList.map (fun q => ⟨turned.size, .epsilon, q⟩) = n.entryTransitions := by
      rw [hsize]
      rfl
    simp only [reverse?, transitions?_eq, Option.bind_eq_bind, Option.bind_some, hturned, hts,
      hentered, setInitial?, addFinal?, dif_pos hentry]
    exact dif_pos hold
  rw [hbuilt]
  refine congrArg some (eq_of_mem_transitions_iff ?_ (fun t => ?_) ?_ hsize ?_)
  · show entered.kinds = _
    rw [hgrows.kinds_eq, kinds_reverse, bare, kinds_ofTransitions]
    rfl
  · show t ∈ entered.transitions ↔ _
    rw [hgrows.mem_iff, bare, mem_transitions_ofTransitions, or_iff_right List.not_mem_nil, reverse,
      mem_transitions_ofTransitions, reversedTransitions, List.append_nil, List.mem_append,
      List.mem_append, or_comm]
  · exact hgrows.alphabet
  · exact finals_addFinal hgrows.finals hold

/-! ## Sets of states -/

/-- The states that one transition from `q` with that label leads to, if `q` exists. -/
def targetsOf? (n : Nfa) (q : Nat) (l : Label) : Option (SortedSet Nat) :=
  n.rows[q]?.map fun moves => (moves.get? l).getD ∅

theorem targetsOf?_eq {l : Label} (h : q < n.size) : n.targetsOf? q l = some (n.targets q l) := by
  rw [targetsOf?, getElem?_rows h]
  rfl

theorem eq_targets_of_targetsOf? {l : Label} (h : n.targetsOf? q l = some set) :
    set = n.targets q l := by
  obtain ⟨moves, hmoves, _⟩ := Option.map_eq_some_iff.mp h
  have hlt : q < n.size := n.wellFormed.size_rows ▸ (Array.getElem?_eq_some_iff.mp hmoves).1
  rw [targetsOf?_eq hlt] at h
  exact (Option.some.inj h).symm

theorem mem_silent_of_mem : ∀ q ∈ sources, (n.silent sources).Mem q := fun _ h => .inl h

/-- All states that epsilon transitions lead to from one of the sources, looked up state
by state. -/
def closure? (n : Nfa) (sources : List Nat) : Option (SortedSet Nat) :=
  ((n.silent sources).explore? (fun q => (n.targetsOf? q .epsilon).map (·.toList))
    (fun _ _ h => by
      obtain ⟨set, hset, rfl⟩ := Option.map_eq_some_iff.mp h
      rw [eq_targets_of_targetsOf? hset]
      rfl)
    sources mem_silent_of_mem).map fun found => .ofList found.toList

theorem closure?_eq (h : ∀ q ∈ sources, q < n.size) :
    n.closure? sources = some (n.closure sources) := by
  have hall : ∀ q, (n.silent sources).Mem q →
      (n.targetsOf? q .epsilon).map (·.toList) = some ((n.silent sources).succ q) := by
    intro q hq
    rw [targetsOf?_eq (hq.elim (h q) id)]
    rfl
  exact congrArg (Option.map fun found => SortedSet.ofList found.toList)
    (Space.explore?_eq hall mem_silent_of_mem)

/-- The targets of states that exist are found. -/
theorem mapM_targetsOf?_eq {l : Label} (h : ∀ q ∈ set, q < n.size) :
    (set.toList.mapM fun q => n.targetsOf? q l) = some (set.toList.map fun q => n.targets q l) :=
  mapM_eq_map fun q hq => targetsOf?_eq (h q hq)

/-- The states that reading `c` leads to from a set, looked up state by state. -/
def step? (n : Nfa) (set : SortedSet Nat) (c : Char) : Option (SortedSet Nat) := do
  let targets ← set.toList.mapM fun q => n.targetsOf? q (.symbol c)
  n.closure? (targets.flatMap (·.toList))

theorem step?_eq (h : ∀ q ∈ set, q < n.size) : n.step? set c = some (n.step set c) := by
  rw [step?, mapM_targetsOf?_eq h, Option.bind_eq_bind, Option.bind_some, List.flatMap_map]
  exact closure?_eq flatMap_targets_lt

/-- The name of a set of states, looked up state by state. -/
def subsetName? (n : Nfa) (set : SortedSet Nat) : Option String := do
  let names ← set.toList.mapM n.name?
  some ("[" ++ ",".intercalate (names.mergeSort fun a b => !decide (b < a)) ++ "]")

theorem subsetName?_eq (h : ∀ q ∈ set, q < n.size) :
    n.subsetName? set = some (n.subsetName set) := by
  rw [subsetName?, mapM_eq_filterMap fun q hq => exists_name? (h q hq)]
  rfl

/-! ## Drawing -/

/-- The states that are drawn by their names: all states, the initial and the final ones
once more, and the ends of the transitions. -/
def drawn (n : Nfa) (transitions : List Transition) : List Nat :=
  n.finals.toList ++ List.range n.size ++
    n.initial :: transitions.flatMap fun t => [t.source, t.target]

/-- The drawing, if all the states exist that are to be drawn. -/
def toDot? (n : Nfa) : Option String := do
  let transitions ← n.transitions?
  if ∀ q ∈ n.drawn transitions, (n.name? q).isSome then some n.toDot else none

theorem lt_size_of_mem_drawn (h : q ∈ n.drawn n.transitions) : q < n.size := by
  rcases List.mem_append.mp h with h | h
  · exact (List.mem_append.mp h).elim (n.finals_lt q) List.mem_range.mp
  · rcases List.mem_cons.mp h with rfl | h
    · exact n.initial_lt
    · obtain ⟨t, ht, hq⟩ := List.mem_flatMap.mp h
      rcases List.mem_pair.mp hq with rfl | rfl
      · exact source_lt ht
      · exact lt_size_of_mem_transitions ht

theorem toDot?_eq (n : Nfa) : n.toDot? = some n.toDot := by
  rw [toDot?, transitions?_eq]
  exact if_pos fun q hq => Option.isSome_iff_exists.mpr (exists_name? (lt_size_of_mem_drawn hq))

end Nfa

end GrammarAutomata
