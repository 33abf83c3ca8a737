import GrammarAutomata.Nfa.Basic
import GrammarAutomata.Proofs.Listings

/-!
# Automata put together edit by edit

An automaton is put together by a sequence of edits that begins with a single state and
refers only to states that are there (`Edit.InOrder`). The edits are made in a store, which
does not keep anything up by itself. All of them succeed, new states get the next numbers,
and the store stays well-formed: each edit leaves no label with the empty set of targets
and no number of a state that does not exist (`NfaStore.Edited.wellFormed`).

What the store shows in the end is what was put in (`NfaStore.Records`): the kinds in the
order of the edits, the transitions and final states as sets, and the last initial state.
Nothing else of the edits is left, so two sequences make the same store if and only if they
agree in these (`NfaStore.edits_are_recorded`). The stores that edits make are the
well-formed ones (`NfaStore.wellFormed_iff_exists_edits`), which are those of automata.
-/

namespace GrammarAutomata

/-- A change of an automaton. -/
inductive Edit where
  /-- add a state of that kind -/
  | addState (kind : StateKind)
  /-- add a transition -/
  | addTransition (t : Transition)
  /-- let reading begin in state `q` -/
  | setInitial (q : Nat)
  /-- make state `q` a final one -/
  | addFinal (q : Nat)
  deriving DecidableEq, Repr

namespace Edit

/-- The kind of the state that is added, if one is. -/
def kind? : Edit → Option StateKind
  | .addState kind => some kind
  | _ => none

/-- The transition that is added, if one is. -/
def transition? : Edit → Option Transition
  | .addTransition t => some t
  | _ => none

/-- The state in which reading is to begin, if the edit says so. -/
def initial? : Edit → Option Nat
  | .setInitial q => some q
  | _ => none

/-- The edit refers to the first `size` states only. -/
def Fits (size : Nat) : Edit → Prop
  | .addState _ => True
  | .addTransition t => t.source < size ∧ t.target < size
  | .setInitial q => q < size
  | .addFinal q => q < size

/-- The kinds of the states that are added, in order. -/
def kinds (edits : List Edit) : List StateKind := edits.filterMap kind?

/-- The transitions that are added, as often as they are. -/
def transitions (edits : List Edit) : List Transition := edits.filterMap transition?

/-- The last state in which reading is to begin, where it was to begin in `initial` at
first. -/
def lastInitial (initial : Nat) (edits : List Edit) : Nat :=
  (edits.filterMap initial?).getLast?.getD initial

/-- Where there are `size` states at first, each edit refers to states that are there by
then. -/
def InOrder (size : Nat) : List Edit → Prop
  | [] => True
  | e :: edits => e.Fits size ∧ InOrder (size + (kinds [e]).length) edits

/-- The edits put the same in. -/
structure Agree (edits edits' : List Edit) : Prop where
  /-- the same kinds of states in the same order -/
  kinds_eq : kinds edits = kinds edits'
  /-- the same transitions, in any order and as often as one likes -/
  addTransition_iff : ∀ t, .addTransition t ∈ edits ↔ .addTransition t ∈ edits'
  /-- the same final states, likewise -/
  addFinal_iff : ∀ q, .addFinal q ∈ edits ↔ .addFinal q ∈ edits'
  /-- and in the end the same initial state -/
  lastInitial_eq : lastInitial 0 edits = lastInitial 0 edits'

variable {edits edits' : List Edit} {size initial : Nat} {t : Transition}

instance (size : Nat) : (e : Edit) → Decidable (e.Fits size)
  | .addState _ => inferInstanceAs (Decidable True)
  | .addTransition _ => inferInstanceAs (Decidable (_ ∧ _))
  | .setInitial _ => inferInstanceAs (Decidable (_ < _))
  | .addFinal _ => inferInstanceAs (Decidable (_ < _))

instance instDecidableInOrder : (size : Nat) → (edits : List Edit) → Decidable (InOrder size edits)
  | _, [] => inferInstanceAs (Decidable True)
  | size, e :: edits =>
    have := instDecidableInOrder (size + (kinds [e]).length) edits
    inferInstanceAs (Decidable (e.Fits size ∧ InOrder _ edits))

theorem Fits.mono {e : Edit} {size' : Nat} (h : e.Fits size) (hle : size ≤ size') :
    e.Fits size' := by
  cases e with
  | addState kind => trivial
  | addTransition t => exact ⟨Nat.lt_of_lt_of_le h.1 hle, Nat.lt_of_lt_of_le h.2 hle⟩
  | setInitial q => exact Nat.lt_of_lt_of_le h hle
  | addFinal q => exact Nat.lt_of_lt_of_le h hle

/-- Edits that refer to the first states only may come in any order. -/
theorem inOrder_of_fits (h : ∀ e ∈ edits, e.Fits size) : InOrder size edits := by
  induction edits generalizing size with
  | nil => trivial
  | cons e edits ih =>
    obtain ⟨he, hedits⟩ := List.forall_mem_cons.mp h
    exact ⟨he, ih fun e' he' => (hedits e' he').mono (Nat.le_add_right size _)⟩

theorem kinds_append (edits edits' : List Edit) :
    kinds (edits ++ edits') = kinds edits ++ kinds edits' := List.filterMap_append

theorem InOrder.append (h : InOrder size edits)
    (h' : InOrder (size + (kinds edits).length) edits') : InOrder size (edits ++ edits') := by
  induction edits generalizing size with
  | nil => exact h'
  | cons e edits ih =>
    refine ⟨h.1, ih h.2 ?_⟩
    rw [← List.singleton_append, kinds_append, List.length_append, ← Nat.add_assoc] at h'
    exact h'

theorem lastInitial_append (initial : Nat) (edits edits' : List Edit) :
    lastInitial initial (edits ++ edits') = lastInitial (lastInitial initial edits) edits' := by
  rw [lastInitial, List.filterMap_append, List.getLast?_append, lastInitial, lastInitial]
  cases (edits'.filterMap initial?).getLast? <;> rfl

theorem mem_transitions_iff : t ∈ transitions edits ↔ .addTransition t ∈ edits := by
  rw [transitions, List.mem_filterMap]
  refine ⟨?_, fun h => ⟨_, h, rfl⟩⟩
  rintro ⟨e, he, heq⟩
  cases e with
  | addTransition s =>
    obtain rfl := Option.some.inj heq
    exact he
  | addState | setInitial | addFinal => cases heq

end Edit

namespace NfaStore

variable {s s' s'' : NfaStore} {e : Edit} {edits edits' : List Edit} {ids ids' : List Nat}
  {alphabet : SortedSet Char} {kind : StateKind} {t : Transition}

/-! ## Edits -/

/-- Make an edit, and list the number of the state that it adds. A transition needs the row
of the state in which it begins and the state to which it leads; where reading begins and may
end is noted without looking for the state. -/
def edit? (s : NfaStore) : Edit → Option (NfaStore × List Nat)
  | .addState kind => some (s.addState kind, [s.size])
  | .addTransition t =>
    if t.source < s.rows.size ∧ t.target < s.size then some (s.addTransition t, []) else none
  | .setInitial q => some (s.setInitial q, [])
  | .addFinal q => some (s.addFinal q, [])

/-- Make several edits, and list the numbers of the states that they add. -/
def editAll? (s : NfaStore) : List Edit → Option (NfaStore × List Nat)
  | [] => some (s, [])
  | e :: edits => do
    let first ← s.edit? e
    let rest ← first.1.editAll? edits
    some (rest.1, first.2 ++ rest.2)

/-- The store `s'` is what edits have made of `s`, and `ids` are the numbers of the states
that they have added. -/
structure Edited (s : NfaStore) (edits : List Edit) (s' : NfaStore) (ids : List Nat) : Prop where
  /-- the new states stand behind those there were -/
  kinds_eq : s'.kinds = s.kinds ++ Edit.kinds edits
  /-- and that is what their numbers say -/
  ids_eq : ids = List.range' s.size (Edit.kinds edits).length
  /-- there are the transitions that there were and those that were added -/
  mem_transitions_iff : ∀ t, t ∈ s'.transitions ↔ t ∈ s.transitions ∨ .addTransition t ∈ edits
  /-- no edit changes the input symbols -/
  alphabet_eq : s'.alphabet = s.alphabet
  /-- reading begins where the last edit says that concerns this -/
  initial_eq : s'.initial = Edit.lastInitial s.initial edits
  /-- there are the final states that there were and those that were added -/
  mem_finals_iff : ∀ q, q ∈ s'.finals ↔ q ∈ s.finals ∨ .addFinal q ∈ edits
  /-- the store is well-formed still -/
  wellFormed : s'.WellFormed

namespace Edited

theorem refl (hs : s.WellFormed) : s.Edited [] s [] where
  kinds_eq := (List.append_nil _).symm
  ids_eq := rfl
  mem_transitions_iff _ := (or_iff_left List.not_mem_nil).symm
  alphabet_eq := rfl
  initial_eq := rfl
  mem_finals_iff _ := (or_iff_left List.not_mem_nil).symm
  wellFormed := hs

theorem size_eq (h : s.Edited edits s' ids) : s'.size = s.size + (Edit.kinds edits).length := by
  rw [← length_kinds, h.kinds_eq, List.length_append, length_kinds]

theorem append (h : s.Edited edits s' ids) (h' : s'.Edited edits' s'' ids') :
    s.Edited (edits ++ edits') s'' (ids ++ ids') where
  kinds_eq := by rw [h'.kinds_eq, h.kinds_eq, Edit.kinds_append, List.append_assoc]
  ids_eq := by
    rw [h.ids_eq, h'.ids_eq, h.size_eq, List.range'_append_1, Edit.kinds_append, List.length_append]
  mem_transitions_iff t := by
    rw [h'.mem_transitions_iff, h.mem_transitions_iff, List.mem_append, or_assoc]
  alphabet_eq := h'.alphabet_eq.trans h.alphabet_eq
  initial_eq := by rw [h'.initial_eq, h.initial_eq, Edit.lastInitial_append]
  mem_finals_iff q := by rw [h'.mem_finals_iff, h.mem_finals_iff, List.mem_append, or_assoc]
  wellFormed := h'.wellFormed

end Edited

/-! ## One edit -/

namespace WellFormed

variable (hs : s.WellFormed)

include hs

theorem edited_addState (kind : StateKind) :
    s.Edited [.addState kind] (s.addState kind) [s.size] where
  kinds_eq := kinds_addState
  ids_eq := rfl
  mem_transitions_iff t := mem_transitions_addState.trans (or_iff_left (by simp)).symm
  alphabet_eq := rfl
  initial_eq := rfl
  mem_finals_iff q := (or_iff_left (by simp)).symm
  wellFormed := hs.addState kind

theorem edited_addTransition (hsource : t.source < s.size) (htarget : t.target < s.size) :
    s.Edited [.addTransition t] (s.addTransition t) [] where
  kinds_eq := (List.append_nil _).symm
  ids_eq := rfl
  mem_transitions_iff t' := by
    rw [mem_transitions_addTransition (hs.size_rows ▸ hsource), or_comm, List.mem_singleton,
      Edit.addTransition.injEq]
  alphabet_eq := rfl
  initial_eq := rfl
  mem_finals_iff q := (or_iff_left (by simp)).symm
  wellFormed := hs.addTransition hsource htarget

theorem edited_setInitial {q : Nat} (hq : q < s.size) :
    s.Edited [.setInitial q] (s.setInitial q) [] where
  kinds_eq := (List.append_nil _).symm
  ids_eq := rfl
  mem_transitions_iff t := (or_iff_left (by simp)).symm
  alphabet_eq := rfl
  initial_eq := rfl
  mem_finals_iff p := (or_iff_left (by simp)).symm
  wellFormed := hs.setInitial hq

theorem edited_addFinal {q : Nat} (hq : q < s.size) :
    s.Edited [.addFinal q] (s.addFinal q) [] where
  kinds_eq := (List.append_nil _).symm
  ids_eq := rfl
  mem_transitions_iff t := (or_iff_left (by simp)).symm
  alphabet_eq := rfl
  initial_eq := rfl
  mem_finals_iff p := by
    show p ∈ insert q s.finals ↔ _
    rw [SortedSet.mem_insert, or_comm, List.mem_singleton, Edit.addFinal.injEq]
  wellFormed := hs.addFinal hq

/-- An edit that refers to states that exist succeeds. -/
theorem exists_edit? (h : e.Fits s.size) :
    ∃ s' ids, s.edit? e = some (s', ids) ∧ s.Edited [e] s' ids := by
  cases e with
  | addState kind => exact ⟨_, _, rfl, hs.edited_addState kind⟩
  | addTransition t =>
    exact ⟨_, _, if_pos ⟨hs.size_rows ▸ h.1, h.2⟩, hs.edited_addTransition h.1 h.2⟩
  | setInitial q => exact ⟨_, _, rfl, hs.edited_setInitial h⟩
  | addFinal q => exact ⟨_, _, rfl, hs.edited_addFinal h⟩

/-- Edits that refer to states that are there by then succeed. -/
theorem exists_editAll? (h : Edit.InOrder s.size edits) :
    ∃ s' ids, s.editAll? edits = some (s', ids) ∧ s.Edited edits s' ids := by
  induction edits generalizing s with
  | nil => exact ⟨s, [], rfl, .refl hs⟩
  | cons e edits ih =>
    obtain ⟨hfits, hrest⟩ := h
    obtain ⟨s', ids, hs', hedited⟩ := hs.exists_edit? hfits
    rw [← hedited.size_eq] at hrest
    obtain ⟨s'', ids', hs'', hedited'⟩ := ih hedited.wellFormed hrest
    refine ⟨s'', ids ++ ids', ?_, hedited.append hedited'⟩
    rw [editAll?, hs']
    simp only [Option.bind_eq_bind, Option.bind_some, hs'']

end WellFormed

/-! ## The record of the edits -/

/-- The store `s` that begins with a state of that kind and is edited shows what was put in,
and `ids` are the numbers that were handed out. -/
structure Records (alphabet : SortedSet Char) (kind : StateKind) (edits : List Edit)
    (s : NfaStore) (ids : List Nat) : Prop where
  /-- states are numbered from zero, in the order in which they are made -/
  ids_eq : 0 :: ids = List.range s.size
  /-- each is of the kind it was made of -/
  kinds_eq : s.kinds = kind :: Edit.kinds edits
  /-- the input symbols are those given -/
  alphabet_eq : s.alphabet = alphabet
  /-- there are targets where some were added -/
  targets?_eq_none_iff : ∀ q l, s.targets? q l = none ↔ ∀ r, .addTransition ⟨q, l, r⟩ ∉ edits
  /-- and they are the ones that were added -/
  targets?_eq_some_iff : ∀ q l set, s.targets? q l = some set ↔
    set ≠ ∅ ∧ ∀ r, r ∈ set ↔ .addTransition ⟨q, l, r⟩ ∈ edits
  /-- state by state a label is listed if it has targets -/
  mem_transitionsFrom_iff : ∀ q l set, (l, set) ∈ s.transitionsFrom q ↔ s.targets? q l = some set
  /-- labels are listed in ascending order, that of reading nothing first -/
  pairwise_transitionsFrom : ∀ q, (s.transitionsFrom q).Pairwise fun e e' => e.1.Before e'.1
  /-- a transition that was added several times counts once -/
  numTransitions_eq : s.numTransitions = (Edit.transitions edits).dedup.length
  /-- reading begins where it was last said to -/
  initial_eq : s.initial = Edit.lastInitial 0 edits
  /-- that state exists -/
  initial_lt : s.initial < s.size
  /-- reading may end in the states that were said -/
  mem_finals_iff : ∀ q, q ∈ s.finals ↔ .addFinal q ∈ edits
  /-- these exist -/
  finals_lt : ∀ q ∈ s.finals, q < s.size

namespace Edited

theorem mem_transitions_single_iff (h : (single alphabet kind).Edited edits s ids) :
    t ∈ s.transitions ↔ .addTransition t ∈ edits :=
  (h.mem_transitions_iff t).trans (or_iff_right not_mem_transitions_ofKinds)

theorem mem_finals_single_iff (h : (single alphabet kind).Edited edits s ids) {q : Nat} :
    q ∈ s.finals ↔ .addFinal q ∈ edits :=
  (h.mem_finals_iff q).trans (or_iff_right (SortedSet.not_mem_empty q))

theorem records (h : (single alphabet kind).Edited edits s ids) :
    Records alphabet kind edits s ids where
  ids_eq := by
    rw [h.size_eq, h.ids_eq, List.range_eq_range', Nat.add_comm]
    rfl
  kinds_eq := h.kinds_eq
  alphabet_eq := h.alphabet_eq
  targets?_eq_none_iff q l := by
    simp only [h.wellFormed.targets?_eq_none_iff, h.mem_transitions_single_iff]
  targets?_eq_some_iff q l set := by
    simp only [h.wellFormed.targets?_eq_some_iff, h.mem_transitions_single_iff]
  mem_transitionsFrom_iff q l set := NfaStore.mem_transitionsFrom_iff
  pairwise_transitionsFrom := s.pairwise_transitionsFrom
  numTransitions_eq := by
    refine numTransitions_eq_length (List.nodup_dedup _) fun t => ?_
    rw [List.mem_dedup, Edit.mem_transitions_iff, h.mem_transitions_single_iff]
  initial_eq := h.initial_eq
  initial_lt := h.wellFormed.initial_lt
  mem_finals_iff q := h.mem_finals_single_iff
  finals_lt := h.wellFormed.finals_lt

/-- Nothing is left of the edits but what they put in. -/
theorem eq_iff (h : (single alphabet kind).Edited edits s ids)
    (h' : (single alphabet kind).Edited edits' s' ids') : s = s' ↔ Edit.Agree edits edits' := by
  refine ⟨?_, fun hagree => ?_⟩
  · rintro rfl
    exact {
      kinds_eq := List.append_cancel_left (h.kinds_eq.symm.trans h'.kinds_eq)
      addTransition_iff := fun t =>
        h.mem_transitions_single_iff.symm.trans h'.mem_transitions_single_iff
      addFinal_iff := fun q => h.mem_finals_single_iff.symm.trans h'.mem_finals_single_iff
      lastInitial_eq := h.initial_eq.symm.trans h'.initial_eq }
  · -- neither store has an empty set that the other could lack
    refine h.wellFormed.eq_of_mem_transitions_iff
      h'.wellFormed ?_ (fun t => ?_) (h.alphabet_eq.trans h'.alphabet_eq.symm)
      ?_ (SortedSet.ext fun q => ?_)
    · rw [h.kinds_eq, h'.kinds_eq, hagree.kinds_eq]
    · rw [h.mem_transitions_single_iff, h'.mem_transitions_single_iff, hagree.addTransition_iff]
    · exact h.initial_eq.trans (hagree.lastInitial_eq.trans h'.initial_eq.symm)
    · rw [h.mem_finals_single_iff, h'.mem_finals_single_iff, hagree.addFinal_iff]

end Edited

/-- **Edits are recorded, each once and in no order.** Edits that refer only to states that
are there by then all succeed and leave a well-formed store, without labels that lead
nowhere, and what it shows in the end is what they have put in. Other edits of the same
first state end with the same store if and only if they put the same in: kinds in the same
order, but transitions and final states in any order and as often as one likes. -/
theorem edits_are_recorded (alphabet : SortedSet Char) (kind : StateKind) (edits : List Edit)
    (h : Edit.InOrder 1 edits) :
    ∃ s ids, (single alphabet kind).editAll? edits = some (s, ids) ∧ s.WellFormed ∧
      Records alphabet kind edits s ids ∧
      ∀ edits', Edit.InOrder 1 edits' → ∃ s' ids',
        (single alphabet kind).editAll? edits' = some (s', ids') ∧
          (s = s' ↔ Edit.Agree edits edits') := by
  obtain ⟨s, ids, hs, hedited⟩ := wellFormed_single.exists_editAll? h
  refine ⟨s, ids, hs, hedited.wellFormed, hedited.records, fun edits' h' => ?_⟩
  obtain ⟨s', ids', hs', hedited'⟩ := wellFormed_single.exists_editAll? h'
  exact ⟨s', ids', hs', hedited.eq_iff hedited'⟩

/-- Edits that say some things twice and change the initial state to and fro. -/
def sampleEdits : List Edit :=
  [.addState (.nonterminal 'A'), .addTransition ⟨0, .symbol 'a', 1⟩, .addFinal 1,
    .addState .accept, .setInitial 1, .addTransition ⟨0, .symbol 'a', 0⟩, .addFinal 2,
    .addTransition ⟨1, .epsilon, 2⟩, .setInitial 0, .addTransition ⟨0, .symbol 'a', 1⟩]

/-- The same in another order, each thing once. -/
def sampleEditsSorted : List Edit :=
  [.addState (.nonterminal 'A'), .addState .accept, .addFinal 2, .addFinal 1,
    .addTransition ⟨1, .epsilon, 2⟩, .addTransition ⟨0, .symbol 'a', 1⟩,
    .addTransition ⟨0, .symbol 'a', 0⟩]

theorem agree_sampleEdits : Edit.Agree sampleEdits sampleEditsSorted where
  kinds_eq := rfl
  addTransition_iff t := by
    simp only [sampleEdits, sampleEditsSorted, List.mem_cons, List.not_mem_nil,
      Edit.addTransition.injEq, reduceCtorEq, false_or, or_false]
    grind
  addFinal_iff q := by
    simp only [sampleEdits, sampleEditsSorted, List.mem_cons, List.not_mem_nil,
      Edit.addFinal.injEq, reduceCtorEq, false_or, or_false]
    grind
  lastInitial_eq := rfl

theorem mem_sampleEdits_iff {r : Nat} :
    r ∈ SortedSet.ofList [0, 1] ↔ .addTransition ⟨0, .symbol 'a', r⟩ ∈ sampleEdits := by
  simp only [SortedSet.mem_ofList, sampleEdits, List.mem_cons, List.not_mem_nil,
    Edit.addTransition.injEq, Transition.mk.injEq, reduceCtorEq, false_or, or_false]
  grind

/-- The store that the edits make, which is also that of the same in another order. -/
theorem edits_are_recorded_sample :
    Edit.InOrder 1 sampleEdits ∧ Edit.InOrder 1 sampleEditsSorted ∧
    ∃ s ids ids', (single {'a'} (.nonterminal 'S')).editAll? sampleEdits = some (s, ids) ∧
      (single {'a'} (.nonterminal 'S')).editAll? sampleEditsSorted = some (s, ids') ∧
      s.WellFormed ∧
      s.kinds = [.nonterminal 'S', .nonterminal 'A', .accept] ∧ 0 :: ids = List.range s.size ∧
      s.targets? 1 (.symbol 'a') = none ∧ s.targets? 0 (.symbol 'a') = some (.ofList [0, 1]) ∧
      s.numTransitions = 3 ∧ s.initial = 0 := by
  have horder : Edit.InOrder 1 sampleEdits := by decide
  have horder' : Edit.InOrder 1 sampleEditsSorted := by decide
  obtain ⟨s, ids, hs, hwf, hrecords, hothers⟩ :=
    edits_are_recorded {'a'} (.nonterminal 'S') sampleEdits horder
  obtain ⟨s', ids', hs', hiff⟩ := hothers sampleEditsSorted horder'
  obtain rfl := hiff.mpr agree_sampleEdits
  refine ⟨horder, horder', s, ids, ids', hs, hs', hwf, hrecords.kinds_eq, hrecords.ids_eq, ?_, ?_,
    ?_, hrecords.initial_eq⟩
  · exact (hrecords.targets?_eq_none_iff 1 (.symbol 'a')).mpr fun r => by simp [sampleEdits]
  · refine (hrecords.targets?_eq_some_iff 0 (.symbol 'a') _).mpr
      ⟨by decide, fun r => mem_sampleEdits_iff⟩
  · exact hrecords.numTransitions_eq

/-! ## Edits for any automaton -/

/-- The edits that put all into `s` that there is between its states. -/
def contents (s : NfaStore) : List Edit :=
  s.transitions.map .addTransition ++ s.finals.toList.map .addFinal ++ [.setInitial s.initial]

theorem kinds_contents : Edit.kinds s.contents = [] := by
  simp [Edit.kinds, contents, List.filterMap_map, Function.comp_def, Edit.kind?]

namespace WellFormed

theorem fits_of_mem_contents (h : s.WellFormed) (he : e ∈ s.contents) : e.Fits s.size := by
  simp only [contents, List.mem_append, List.mem_map, List.mem_singleton] at he
  rcases he with (⟨t, ht, rfl⟩ | ⟨q, hq, rfl⟩) | rfl
  · exact ⟨h.source_lt ht, h.target_lt t ht⟩
  · exact h.finals_lt q hq
  · exact h.initial_lt

/-- First come the states, and then what is between them. -/
theorem exists_edits (h : s.WellFormed) : ∃ kind edits ids, Edit.InOrder 1 edits ∧
    (single s.alphabet kind).editAll? edits = some (s, ids) := by
  obtain ⟨kind, others, hothers⟩ : ∃ kind others, s.kinds = kind :: others := by
    refine List.exists_cons_of_length_pos ?_
    rw [length_kinds]
    exact Nat.zero_lt_of_lt h.initial_lt
  have hkinds : Edit.kinds (others.map .addState) = others := by
    simp [Edit.kinds, List.filterMap_map, Function.comp_def, Edit.kind?]
  have hsize : 1 + (Edit.kinds (others.map .addState)).length = s.size := by
    rw [hkinds, ← length_kinds, hothers, List.length_cons, Nat.add_comm]
  have horder : Edit.InOrder 1 (others.map .addState ++ s.contents) := by
    refine (Edit.inOrder_of_fits fun e he => ?_).append (Edit.inOrder_of_fits fun e he => ?_)
    · obtain ⟨k, _, rfl⟩ := List.mem_map.mp he
      trivial
    · rw [hsize]
      exact h.fits_of_mem_contents he
  obtain ⟨s', ids, hs', hedited⟩ := wellFormed_single.exists_editAll? horder
  have heq : s' = s := by
    refine hedited.wellFormed.eq_of_mem_transitions_iff h ?_ (fun t => ?_) hedited.alphabet_eq ?_
      (SortedSet.ext fun q => ?_)
    · rw [hedited.kinds_eq, Edit.kinds_append, hkinds, kinds_contents, hothers, List.append_nil]
      rfl
    · rw [hedited.mem_transitions_single_iff]
      simp [contents]
    · rw [hedited.initial_eq, contents, ← List.append_assoc, Edit.lastInitial_append]
      rfl
    · rw [hedited.mem_finals_single_iff]
      simp [contents]
  exact ⟨kind, _, ids, horder, heq ▸ hs'⟩

end WellFormed

/-- **Edits make the well-formed stores.** They make each of them, and no others. -/
theorem wellFormed_iff_exists_edits : s.WellFormed ↔ ∃ kind edits ids, Edit.InOrder 1 edits ∧
    (single s.alphabet kind).editAll? edits = some (s, ids) := by
  refine ⟨WellFormed.exists_edits, fun ⟨kind, edits, ids, horder, hedits⟩ => ?_⟩
  obtain ⟨s', ids', hs', hedited⟩ := wellFormed_single.exists_editAll? horder
  cases hedits.symm.trans hs'
  exact hedited.wellFormed

end NfaStore

/-- There is no automaton that edits do not make. -/
theorem Nfa.exists_edits (n : Nfa) : ∃ kind edits ids, Edit.InOrder 1 edits ∧
    (NfaStore.single n.alphabet kind).editAll? edits = some (n.toNfaStore, ids) :=
  n.wellFormed.exists_edits

end GrammarAutomata
