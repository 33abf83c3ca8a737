import GrammarAutomata.Search

/-!
# The order of discovery

A breadth-first search goes through what it finds in the order in which it finds it. So
what it finds is the numbering of one long list: the sources, then the successors of
element 0, then those of element 1, and so on (`Space.explore_eq_addAll`). An element is
numbered where it first occurs in that list, and hence wherever an element occurs, all
that have lower numbers have occurred before (`Space.mem_before_of_explore`).
-/

namespace GrammarAutomata

open Std

variable {α : Type} [Ord α] [TransOrd α] [LawfulEqOrd α]

namespace Numbering

variable {s : Numbering α}

omit [TransOrd α] [LawfulEqOrd α] in
theorem getElem?_toList (s : Numbering α) (i : Nat) : s.toList[i]? = s.get? i :=
  Array.getElem?_toList

theorem addAll_append {l m : List α} : s.addAll (l ++ m) = (s.addAll l).addAll m :=
  List.foldl_append

/-- What has a lower number than an element occurs before each occurrence of it. -/
theorem mem_of_get?_addAll {before after : List α} {x y : α} {i j : Nat}
    (hx : (empty.addAll (before ++ y :: after)).get? i = some x)
    (hy : (empty.addAll (before ++ y :: after)).get? j = some y) (hij : i < j) :
    x ∈ before := by
  have hkeep {k : Nat} {z : α} (h : ((empty.addAll before).add y).get? k = some z) :
      (empty.addAll (before ++ y :: after)).get? k = some z := by
    rw [addAll_append]
    exact get?_addAll_of_eq_some (l := after) h
  -- behind what occurs before it the element takes the next number, unless it has one
  obtain ⟨k, hk⟩ := mem_iff_get?.mp (mem_add.mpr (.inl rfl) : y ∈ (empty.addAll before).add y)
  obtain rfl : k = j := eq_of_get? (hkeep hk) hy
  have hle : k ≤ (empty.addAll before).size := by
    by_cases hmem : y ∈ empty.addAll before
    · rw [add_of_mem hmem] at hk
      exact Nat.le_of_lt (lt_size_of_get? hk)
    · have hlt := lt_size_of_get? hk
      rw [size_add_of_not_mem hmem] at hlt
      exact Nat.le_of_lt_succ hlt
  obtain ⟨z, hz⟩ := exists_get?_of_lt (Nat.lt_of_lt_of_le hij hle)
  obtain rfl : z = x := Option.some.inj ((hkeep (get?_add_of_eq_some hz)).symm.trans hx)
  exact (mem_addAll.mp (mem_of_get? hz)).resolve_right (not_mem_empty z)

end Numbering

namespace Space

variable {S : Space α} {known : Numbering α} {next : Nat} {sources : List α}

/-- The search adds the successors of all elements that it has not gone through yet. -/
theorem exploreFrom_eq_addAll (h : S.Contains known) : S.exploreFrom none known next h =
    known.addAll (((S.exploreFrom none known next h).toList.drop next).flatMap S.succ) := by
  generalize hlim : (none : Option Nat) = limit
  fun_induction exploreFrom S limit known next h with
  | case1 known next h hnone =>
    have hle : known.toList.length ≤ next := by
      rw [Numbering.length_toList]
      exact Array.getElem?_eq_none_iff.mp hnone
    rw [List.drop_eq_nil_of_le hle]
    rfl
  | case2 known next h x hx hex => subst hlim; simp [exceeds] at hex
  | case3 known next h x hx hex ih =>
    subst hlim
    have hget : (S.exploreFrom none (known.addAll (S.succ x)) (next + 1) (h.addAll hx)).get? next =
        some x := get?_exploreFrom_of_eq_some _ (Numbering.get?_addAll_of_eq_some hx)
    rw [← Numbering.getElem?_toList] at hget
    obtain ⟨hlt, hnext⟩ := List.getElem?_eq_some_iff.mp hget
    rw [List.drop_eq_getElem_cons hlt, hnext, List.flatMap_cons, Numbering.addAll_append]
    exact ih

/-- What the search finds is the numbering of the sources and of all successors, in
order. -/
theorem explore_eq_addAll (h : ∀ x ∈ sources, S.Mem x) : S.explore none sources h =
    Numbering.empty.addAll (sources ++ (S.explore none sources h).toList.flatMap S.succ) := by
  rw [Numbering.addAll_append]
  exact exploreFrom_eq_addAll (contains_addAll_empty h)

/-- Wherever an element occurs among successors, what has a lower number is a source or
has occurred before: among the successors of an element gone through before, or further
ahead among the same successors. -/
theorem mem_before_of_explore (h : ∀ x ∈ sources, S.Mem x) {x y z : α} {i j k : Nat}
    {before after : List α} (hx : (S.explore none sources h).get? i = some x)
    (hy : (S.explore none sources h).get? j = some y) (hij : i < j)
    (hz : (S.explore none sources h).get? k = some z) (hsucc : S.succ z = before ++ y :: after) :
    x ∈ sources ∨ (∃ k' z', k' < k ∧ (S.explore none sources h).get? k' = some z' ∧
      x ∈ S.succ z') ∨ x ∈ before := by
  generalize hfound : S.explore none sources h = found at hx hy hz ⊢
  have hlist : found =
      Numbering.empty.addAll (sources ++ found.toList.flatMap S.succ) := by
    rw [← hfound]
    exact explore_eq_addAll h
  -- the list taken apart at the occurrence of the element
  rw [← Numbering.getElem?_toList] at hz
  obtain ⟨hlt, hget⟩ := List.getElem?_eq_some_iff.mp hz
  have hsplit : found.toList = found.toList.take k ++ z :: found.toList.drop (k + 1) := by
    rw [← hget, ← List.drop_eq_getElem_cons hlt, List.take_append_drop]
  have hflat : found.toList.flatMap S.succ = (found.toList.take k).flatMap S.succ ++
      (before ++ y :: after) ++ (found.toList.drop (k + 1)).flatMap S.succ := by
    rw [← hsucc, List.append_assoc, ← List.flatMap_cons, ← List.flatMap_append, ← hsplit]
  have hlist' : found = Numbering.empty.addAll
      ((sources ++ (found.toList.take k).flatMap S.succ ++ before) ++
        y :: (after ++ (found.toList.drop (k + 1)).flatMap S.succ)) := by
    simpa [hflat] using hlist
  rw [hlist'] at hx hy
  rcases List.mem_append.mp (Numbering.mem_of_get?_addAll hx hy hij) with hmem | hmem
  · rcases List.mem_append.mp hmem with hmem | hmem
    · exact .inl hmem
    · obtain ⟨z', hz', hmem⟩ := List.mem_flatMap.mp hmem
      obtain ⟨k', hk', rfl⟩ := List.mem_take_iff_getElem.mp hz'
      refine .inr (.inl ⟨k', _, by omega, ?_, hmem⟩)
      rw [← Numbering.getElem?_toList]
      exact List.getElem?_eq_getElem _
  · exact .inr (.inr hmem)

end Space

end GrammarAutomata
