import GrammarAutomata.Nfa.Moves

/-!
# Stores of transitions

What a nondeterministic automaton consists of, changed step by step. States are numbered
from zero in the order in which they are added; one row has their kinds, another one their
moves, label by label. A store may hold anything, also a number of a state that does not
exist, or a label with the empty set of targets. One in which the rows are of one length,
all numbers are those of states and no label stands for the empty set is well-formed
(`NfaStore.WellFormed`); each change that refers to states that exist keeps it so.

A well-formed store is no more than what it shows: two that were put together in different
orders are equal as soon as they show the same (`NfaStore.WellFormed.eq_of_mem_transitions_iff`).
-/

namespace GrammarAutomata

/-- The part a state plays, which its name shows. -/
inductive StateKind where
  /-- the state of the nonterminal `c` -/
  | nonterminal (c : Char)
  /-- the state in which a word has been derived -/
  | accept
  /-- a state inside the chain that reads a longer body -/
  | intermediate
  /-- the initial state of a reversed automaton -/
  | entry
  deriving DecidableEq, Repr

/-- The name of state number `id`: its nonterminal, or a letter for its kind and
its number. -/
def StateKind.name (id : Nat) : StateKind → String
  | .nonterminal c => c.toString
  | .accept => "F" ++ id.repr
  | .intermediate => "W" ++ id.repr
  | .entry => "I" ++ id.repr

/-- The states of an automaton with their moves, and where reading begins and may end. -/
structure NfaStore where
  /-- the kinds of the states; that of state `q` is the one at position `q` -/
  states : Array StateKind
  /-- the moves out of the states, in the same order -/
  rows : Array Moves
  /-- the input symbols; moves may read others -/
  alphabet : SortedSet Char
  /-- the state in which reading begins -/
  initial : Nat
  /-- the states in which reading may end -/
  finals : SortedSet Nat
  deriving DecidableEq

namespace NfaStore

/-! ## Putting a store together -/

/-- States of the given kinds, without moves. -/
def ofKinds (kinds : List StateKind) (alphabet : SortedSet Char) (initial : Nat)
    (finals : SortedSet Nat) : NfaStore :=
  ⟨kinds.toArray, Array.replicate kinds.length .empty, alphabet, initial, finals⟩

/-- One state, which is initial, and no moves. -/
def single (alphabet : SortedSet Char) (kind : StateKind) : NfaStore := ofKinds [kind] alphabet 0 ∅

variable (s : NfaStore)

/-- Add a state; its number is the former size. -/
def addState (kind : StateKind) : NfaStore :=
  { s with states := s.states.push kind, rows := s.rows.push .empty }

/-- Add a move to the row of the state in which a transition begins. -/
def link (t : Transition) (rows : Array Moves) : Array Moves :=
  rows.modify t.source fun moves => moves.add t.move

/-- Add a transition; nothing changes if it is there already. -/
def addTransition (t : Transition) : NfaStore := { s with rows := link t s.rows }

/-- Add several transitions. -/
def addTransitions (ts : List Transition) : NfaStore := { s with rows := ts.foldr link s.rows }

/-- Let reading begin in `q`. -/
def setInitial (q : Nat) : NfaStore := { s with initial := q }

/-- Make `q` a final state. -/
def addFinal (q : Nat) : NfaStore := { s with finals := insert q s.finals }

/-! ## Reading it off -/

/-- The number of states, which is also the number of the next one. -/
def size : Nat := s.states.size

/-- The moves out of state `q`. There are none if it does not exist. -/
def moves (q : Nat) : Moves := s.rows[q]?.getD .empty

/-- The kinds of the states, by number. -/
def kinds : List StateKind := s.states.toList

/-- The name of a state, if it exists. -/
def name? (q : Nat) : Option String := s.states[q]?.map (StateKind.name q)

/-- The names of the states, by number. -/
def names : Array String := s.states.mapIdx StateKind.name

/-- The first state of that name. -/
def stateByName? (name : String) : Option Nat := s.names.toList.findIdx? (· == name)

/-- All transitions, by source. -/
def transitions : List Transition :=
  (List.range s.rows.size).flatMap fun q =>
    (s.moves q).toList.map fun m => ⟨q, m.label, m.target⟩

/-- How many transitions there are. -/
def numTransitions : Nat := s.transitions.length

/-- What stands for the label in the state `q`: the states that one transition from `q` with
that label leads to, if there is an entry for it. -/
def targets? (q : Nat) (l : Label) : Option (SortedSet Nat) := (s.moves q).get? l

/-- The states that one transition from `q` with that label leads to. -/
def targets (q : Nat) (l : Label) : SortedSet Nat := (s.targets? q l).getD ∅

/-- The transitions that begin in `q`, by label. -/
def transitionsFrom (q : Nat) : List (Label × SortedSet Nat) := (s.moves q).entries

variable {s} {s' : NfaStore} {t t' : Transition} {ts : List Transition} {kind : StateKind}
  {kinds : List StateKind} {alphabet : SortedSet Char} {initial q r : Nat}
  {finals : SortedSet Nat} {l : Label} {m : Move}

@[simp] theorem length_kinds : s.kinds.length = s.size := rfl

@[simp] theorem size_names : s.names.size = s.size := Array.size_mapIdx

/-- A move is one of a state that has a row. -/
theorem lt_size_of_mem_moves (h : m ∈ s.moves q) : q < s.rows.size := by
  rw [moves] at h
  cases hq : s.rows[q]? with
  | none =>
    rw [hq] at h
    exact absurd h (Moves.not_mem_empty m)
  | some moves => exact (Array.getElem?_eq_some_iff.mp hq).1

@[simp] theorem mem_transitions : t ∈ s.transitions ↔ t.move ∈ s.moves t.source := by
  obtain ⟨source, label, target⟩ := t
  simp only [transitions, List.mem_flatMap, List.mem_range, List.mem_map, Transition.mk.injEq,
    Transition.move, Moves.mem_toList]
  constructor
  · rintro ⟨q, _, m, hm, rfl, rfl, rfl⟩
    exact hm
  · intro h
    exact ⟨source, lt_size_of_mem_moves h, _, h, rfl, rfl, rfl⟩

@[simp] theorem mem_targets : r ∈ s.targets q l ↔ ⟨q, l, r⟩ ∈ s.transitions := by
  rw [mem_transitions, Transition.move, Moves.mem_iff_mem_getD]
  rfl

/-! ## What changes change -/

@[simp] theorem size_rows_ofKinds :
    (ofKinds kinds alphabet initial finals).rows.size = kinds.length := Array.size_replicate

@[simp] theorem moves_ofKinds : (ofKinds kinds alphabet initial finals).moves q = .empty := by
  rw [moves, ofKinds, Array.getElem?_replicate]
  split <;> rfl

theorem not_mem_transitions_ofKinds : t ∉ (ofKinds kinds alphabet initial finals).transitions := by
  rw [mem_transitions, moves_ofKinds]
  exact Moves.not_mem_empty _

theorem kinds_addState : (s.addState kind).kinds = s.kinds ++ [kind] := Array.toList_push

@[simp] theorem size_addState : (s.addState kind).size = s.size + 1 := Array.size_push ..

@[simp] theorem size_rows_addState : (s.addState kind).rows.size = s.rows.size + 1 :=
  Array.size_push ..

@[simp] theorem moves_addState : (s.addState kind).moves q = s.moves q := by
  rw [moves, moves, addState, Array.getElem?_push]
  split
  · rename_i hq
    rw [Array.getElem?_eq_none_iff.mpr (Nat.le_of_eq hq.symm)]
    rfl
  · rfl

theorem mem_transitions_addState : t ∈ (s.addState kind).transitions ↔ t ∈ s.transitions := by
  rw [mem_transitions, mem_transitions, moves_addState]

@[simp] theorem size_rows_addTransition : (s.addTransition t).rows.size = s.rows.size :=
  Array.size_modify ..

/-- A transition is added to the moves of the state in which it begins, and to no others. -/
theorem moves_addTransition (ht : t.source < s.rows.size) :
    (s.addTransition t).moves q = if q = t.source then (s.moves q).add t.move else s.moves q := by
  rw [moves, moves, addTransition, link, Array.getElem?_modify]
  by_cases hq : t.source = q
  · subst hq
    rw [if_pos rfl, if_pos rfl, Array.getElem?_eq_getElem ht]
    rfl
  · rw [if_neg hq, if_neg (Ne.symm hq)]

theorem mem_transitions_addTransition (ht : t.source < s.rows.size) :
    t' ∈ (s.addTransition t).transitions ↔ t' = t ∨ t' ∈ s.transitions := by
  rw [mem_transitions, mem_transitions, moves_addTransition ht]
  obtain ⟨source, label, target⟩ := t
  obtain ⟨source', label', target'⟩ := t'
  by_cases hsource : source' = source
  · simp [hsource, Transition.move]
  · simp [hsource]

@[simp] theorem size_rows_addTransitions : (s.addTransitions ts).rows.size = s.rows.size := by
  induction ts with
  | nil => rfl
  | cons t ts ih => exact size_rows_addTransition.trans ih

theorem mem_transitions_addTransitions (hts : ∀ t ∈ ts, t.source < s.rows.size) :
    t ∈ (s.addTransitions ts).transitions ↔ t ∈ ts ∨ t ∈ s.transitions := by
  induction ts with
  | nil => exact (or_iff_right List.not_mem_nil).symm
  | cons t' ts ih =>
    obtain ⟨ht, hts⟩ := List.forall_mem_cons.mp hts
    have hlt : t'.source < (s.addTransitions ts).rows.size := by
      rw [size_rows_addTransitions]
      exact ht
    refine (mem_transitions_addTransition hlt).trans ?_
    rw [ih hts, List.mem_cons, or_assoc]

/-! ## Well-formed stores -/

/-- All states exist that are referred to, and no label stands for the empty set. -/
structure WellFormed (s : NfaStore) : Prop where
  /-- each state has its row of moves -/
  size_rows : s.rows.size = s.size
  /-- the initial state exists -/
  initial_lt : s.initial < s.size
  /-- the final states exist -/
  finals_lt : ∀ q ∈ s.finals, q < s.size
  /-- transitions lead to states that exist -/
  target_lt : ∀ t ∈ s.transitions, t.target < s.size
  /-- a label that stands for states leads to one at least -/
  filled : ∀ q, (s.moves q).Filled

theorem wellFormed_ofKinds (hinitial : initial < kinds.length)
    (hfinals : ∀ q ∈ finals, q < kinds.length) :
    (ofKinds kinds alphabet initial finals).WellFormed where
  size_rows := size_rows_ofKinds
  initial_lt := hinitial
  finals_lt := hfinals
  target_lt t ht := absurd ht not_mem_transitions_ofKinds
  filled q := by
    rw [moves_ofKinds]
    exact Moves.filled_empty

theorem wellFormed_single : (single alphabet kind).WellFormed :=
  wellFormed_ofKinds Nat.zero_lt_one fun q hq => absurd hq (SortedSet.not_mem_empty q)

namespace WellFormed

/-- Transitions begin in states that exist. -/
theorem source_lt (h : s.WellFormed) (ht : t ∈ s.transitions) : t.source < s.size :=
  h.size_rows ▸ lt_size_of_mem_moves (mem_transitions.mp ht)

theorem addState (h : s.WellFormed) (kind : StateKind) : (s.addState kind).WellFormed where
  size_rows := by rw [size_rows_addState, size_addState, h.size_rows]
  initial_lt := by
    rw [size_addState]
    exact Nat.lt_succ_of_lt h.initial_lt
  finals_lt q hq := by
    rw [size_addState]
    exact Nat.lt_succ_of_lt (h.finals_lt q hq)
  target_lt t ht := by
    rw [size_addState]
    exact Nat.lt_succ_of_lt (h.target_lt t (mem_transitions_addState.mp ht))
  filled q := by
    rw [moves_addState]
    exact h.filled q

theorem addTransition (h : s.WellFormed) (hs : t.source < s.size) (ht : t.target < s.size) :
    (s.addTransition t).WellFormed := by
  rw [← h.size_rows] at hs
  refine ⟨size_rows_addTransition.trans h.size_rows, h.initial_lt, h.finals_lt, fun t' ht' => ?_,
    fun q => ?_⟩
  · rcases (mem_transitions_addTransition hs).mp ht' with rfl | ht'
    · exact ht
    · exact h.target_lt t' ht'
  · -- the label of the transition now stands for a set that has its target
    rw [moves_addTransition hs]
    split
    · exact (h.filled q).add t.move
    · exact h.filled q

theorem addTransitions (h : s.WellFormed)
    (hts : ∀ t ∈ ts, t.source < s.size ∧ t.target < s.size) : (s.addTransitions ts).WellFormed := by
  induction ts with
  | nil => exact h
  | cons t ts ih =>
    obtain ⟨ht, hts⟩ := List.forall_mem_cons.mp hts
    exact (ih hts).addTransition ht.1 ht.2

theorem setInitial (h : s.WellFormed) (hq : q < s.size) : (s.setInitial q).WellFormed :=
  { h with initial_lt := hq }

theorem addFinal (h : s.WellFormed) (hq : q < s.size) : (s.addFinal q).WellFormed :=
  { h with
    finals_lt := fun p hp => by
      rcases SortedSet.mem_insert.mp hp with rfl | hp
      · exact hq
      · exact h.finals_lt p hp }

/-- A label stands for nothing if it leads nowhere. -/
theorem targets?_eq_none_iff (h : s.WellFormed) :
    s.targets? q l = none ↔ ∀ r, ⟨q, l, r⟩ ∉ s.transitions := by
  simp only [mem_transitions]
  exact (h.filled q).get?_eq_none_iff

/-- What a label stands for is not empty, and it is what the label leads to. -/
theorem targets?_eq_some_iff (h : s.WellFormed) {set : SortedSet Nat} :
    s.targets? q l = some set ↔ set ≠ ∅ ∧ ∀ r, r ∈ set ↔ ⟨q, l, r⟩ ∈ s.transitions := by
  simp only [mem_transitions]
  exact (h.filled q).get?_eq_some_iff

/-- Well-formed stores that show the same are the same. -/
theorem eq_of_mem_transitions_iff (h : s.WellFormed) (h' : s'.WellFormed)
    (hkinds : s.kinds = s'.kinds) (htransitions : ∀ t, t ∈ s.transitions ↔ t ∈ s'.transitions)
    (halphabet : s.alphabet = s'.alphabet) (hinitial : s.initial = s'.initial)
    (hfinals : s.finals = s'.finals) : s = s' := by
  have hmoves (q : Nat) : s.moves q = s'.moves q := (h.filled q).ext (h'.filled q) fun m =>
    mem_transitions.symm.trans ((htransitions ⟨q, m.label, m.target⟩).trans mem_transitions)
  have hstates : s.states = s'.states := Array.toList_inj.mp hkinds
  have hrows : s.rows = s'.rows := by
    have hsize : s.rows.size = s'.rows.size := by
      rw [h.size_rows, h'.size_rows, ← length_kinds, hkinds, length_kinds]
    refine Array.ext hsize fun q hq hq' => ?_
    have hrow := hmoves q
    rwa [moves, moves, Array.getElem?_eq_getElem hq, Array.getElem?_eq_getElem hq'] at hrow
  cases s; cases s'
  cases hstates; cases hrows; cases halphabet; cases hinitial; cases hfinals
  rfl

end WellFormed

/-- In a store that is not well-formed a label can stand for the empty set. Then it is not
missing although it leads nowhere. -/
example : NfaStore.targets? ⟨#[.accept], #[SortedMap.empty.put .epsilon ∅], ∅, 0, ∅⟩ 0 .epsilon =
    some ∅ := rfl

end NfaStore

end GrammarAutomata
