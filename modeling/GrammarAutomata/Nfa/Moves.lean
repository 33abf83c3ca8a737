import GrammarAutomata.Nfa.Transition
import GrammarAutomata.SortedMap

/-!
# Moves

The moves out of a state are kept by label: a label stands for the set of the states that
it leads to. What says that a label leads nowhere is that it is missing, and not that it
stands for the empty set. A map of this kind could hold empty sets all the same, so that
there are none has to be kept up by what adds moves (`Moves.Filled.add`); then two such
maps are equal as soon as they have the same moves (`Moves.Filled.ext`).
-/

namespace GrammarAutomata

/-- The moves out of a state: for some labels, the states that they lead to. -/
abbrev Moves := SortedMap Label (SortedSet Nat)

namespace Moves

instance : Membership Move Moves where
  mem moves m := ∃ targets, moves.get? m.label = some targets ∧ m.target ∈ targets

/-- All moves, by label and then by target. -/
def toList (moves : Moves) : List Move :=
  moves.entries.flatMap fun e => e.2.toList.map fun q => ⟨e.1, q⟩

/-- Add a move: its target comes to those of its label, which are none if the label is
missing. -/
def add (moves : Moves) (m : Move) : Moves :=
  moves.upsert m.label fun targets? => insert m.target (targets?.getD ∅)

/-- No label stands for the empty set. -/
def Filled (moves : Moves) : Prop := ∀ l, moves.get? l ≠ some ∅

variable {moves moves' : Moves} {m m' : Move} {l : Label} {q : Nat}

theorem not_mem_empty (m : Move) : m ∉ (.empty : Moves) := nofun

theorem mem_iff_mem_getD : m ∈ moves ↔ m.target ∈ (moves.get? m.label).getD ∅ := by
  show (∃ targets, moves.get? m.label = some targets ∧ m.target ∈ targets) ↔ _
  cases moves.get? m.label with
  | none => simp
  | some targets => simp

@[simp] theorem mem_toList : m ∈ moves.toList ↔ m ∈ moves := by
  show _ ↔ ∃ targets, moves.get? m.label = some targets ∧ m.target ∈ targets
  obtain ⟨l, q⟩ := m
  rw [toList, List.mem_flatMap]
  refine ⟨?_, fun ⟨targets, hget, hq⟩ => ?_⟩
  · rintro ⟨⟨l', targets⟩, he, hm⟩
    obtain ⟨q', hq', heq⟩ := List.mem_map.mp hm
    cases heq
    exact ⟨targets, SortedMap.mem_entries_iff.mp he, hq'⟩
  · exact ⟨(l, targets), SortedMap.mem_entries_iff.mpr hget, List.mem_map.mpr ⟨q, hq, rfl⟩⟩

/-- Adding adds the one move and nothing else. -/
@[simp] theorem mem_add : m' ∈ moves.add m ↔ m' = m ∨ m' ∈ moves := by
  obtain ⟨l', q'⟩ := m'
  obtain ⟨l, q⟩ := m
  rw [mem_iff_mem_getD, mem_iff_mem_getD, add, SortedMap.get?_upsert]
  by_cases hl : l' = l
  · simp [hl]
  · simp [hl]

theorem filled_empty : Filled .empty := nofun

/-- A label that a move is added with stands for one state at least. -/
theorem Filled.add (h : moves.Filled) (m : Move) : (moves.add m).Filled := by
  intro l
  rw [Moves.add, SortedMap.get?_upsert]
  split
  · intro heq
    have hmem : m.target ∈ insert m.target ((moves.get? m.label).getD ∅) :=
      SortedSet.mem_insert.mpr (.inl rfl)
    rw [Option.some.inj heq] at hmem
    exact SortedSet.not_mem_empty _ hmem
  · exact h l

/-- If there are no empty sets, the labels that are missing are those that lead nowhere. -/
theorem Filled.get?_eq_none_iff (h : moves.Filled) : moves.get? l = none ↔ ∀ q, ⟨l, q⟩ ∉ moves := by
  refine ⟨fun hnone q => ?_, fun hnot => ?_⟩
  · rw [mem_iff_mem_getD, hnone]
    exact SortedSet.not_mem_empty q
  · cases hget : moves.get? l with
    | none => rfl
    | some targets =>
      have hempty : targets = ∅ := SortedSet.eq_empty_iff.mpr fun q hq => hnot q ⟨_, hget, hq⟩
      exact absurd (hempty ▸ hget) (h l)

/-- If there are no empty sets, a label stands for a set that is not empty and holds what the
label leads to. -/
theorem Filled.get?_eq_some_iff (h : moves.Filled) {targets : SortedSet Nat} :
    moves.get? l = some targets ↔ targets ≠ ∅ ∧ ∀ q, q ∈ targets ↔ ⟨l, q⟩ ∈ moves := by
  refine ⟨fun hget => ⟨fun hempty => h l (hempty ▸ hget), fun q => ?_⟩, fun ⟨hne, hmem⟩ => ?_⟩
  · rw [mem_iff_mem_getD, hget]
    rfl
  · cases hget : moves.get? l with
    | none =>
      refine absurd (SortedSet.eq_empty_iff.mpr fun q hq => ?_) hne
      exact h.get?_eq_none_iff.mp hget q ((hmem q).mp hq)
    | some targets' =>
      refine congrArg some (SortedSet.ext fun q => ?_)
      rw [hmem, mem_iff_mem_getD, hget]
      rfl

/-- **Moves without empty sets are determined by which there are.** -/
theorem Filled.ext (h : moves.Filled) (h' : moves'.Filled) (hmem : ∀ m, m ∈ moves ↔ m ∈ moves') :
    moves = moves' := by
  refine SortedMap.ext fun l => ?_
  cases hget : moves'.get? l with
  | none =>
    refine h.get?_eq_none_iff.mpr fun q => ?_
    rw [hmem]
    exact h'.get?_eq_none_iff.mp hget q
  | some targets =>
    obtain ⟨hne, htargets⟩ := h'.get?_eq_some_iff.mp hget
    exact h.get?_eq_some_iff.mpr ⟨hne, fun q => (htargets q).trans (hmem _).symm⟩

/-- Moves are listed by label and then by target. -/
theorem pairwise_toList (moves : Moves) : moves.toList.Pairwise fun m m' =>
    m.label.Before m'.label ∨ m.label = m'.label ∧ m.target < m'.target := by
  refine List.pairwise_flatMap.mpr ⟨fun e _ => ?_, ?_⟩
  · refine List.pairwise_map.mpr (e.2.sorted.imp fun h => .inr ⟨rfl, ?_⟩)
    exact Nat.compare_eq_lt.mp h
  · refine moves.sorted.imp fun h m hm m' hm' => ?_
    obtain ⟨q, _, rfl⟩ := List.mem_map.mp hm
    obtain ⟨q', _, rfl⟩ := List.mem_map.mp hm'
    exact .inl (Label.compare_eq_lt_iff.mp h)

/-- No move is listed twice. -/
theorem nodup_toList (moves : Moves) : moves.toList.Nodup := by
  refine moves.pairwise_toList.imp fun h => ?_
  rintro rfl
  rcases h with h | ⟨_, h⟩
  · exact h.ne rfl
  · exact Nat.lt_irrefl _ h

end Moves

end GrammarAutomata
