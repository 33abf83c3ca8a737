import Std.Data.TreeMap

/-!
# Numberings

A listing without repetitions that also knows the place of each element. Asking
whether something is listed, and where, takes a look-up in a search tree and not a
walk through the listing; a numbering grows at its end only, so places never
change (`Numbering.get?_add_of_eq_some`).
-/

namespace GrammarAutomata

open Std

/-- Different elements in a row, each with its place. -/
structure Numbering (α : Type) [Ord α] where
  /-- the elements -/
  elements : Array α
  /-- the place of each element -/
  places : TreeMap α Nat
  /-- a place holds the element that it is the place of -/
  places_eq : ∀ (x : α) (i : Nat), places[x]? = some i ↔ elements[i]? = some x

namespace Numbering

variable {α : Type} [Ord α]

instance : Membership α (Numbering α) where
  mem s x := x ∈ s.elements

/-- How many elements there are. -/
def size (s : Numbering α) : Nat := s.elements.size

/-- The elements in a row. -/
def toList (s : Numbering α) : List α := s.elements.toList

/-- The element at a place. -/
def get? (s : Numbering α) (i : Nat) : Option α := s.elements[i]?

/-- The place of `x`, if it is listed. -/
def place? (s : Numbering α) (x : α) : Option Nat := s.places[x]?

/-- The place of `x`, or the next free place if it is not listed. -/
def placeOf (s : Numbering α) (x : α) : Nat := (s.place? x).getD s.size

@[simp] theorem place?_eq_some_iff {s : Numbering α} {x : α} {i : Nat} :
    s.place? x = some i ↔ s.get? i = some x := s.places_eq x i

@[simp] theorem mem_toList {s : Numbering α} {x : α} : x ∈ s.toList ↔ x ∈ s := Array.mem_toList_iff

@[simp] theorem length_toList {s : Numbering α} : s.toList.length = s.size := Array.length_toList

theorem mem_iff_get? {s : Numbering α} {x : α} : x ∈ s ↔ ∃ i, s.get? i = some x :=
  Array.mem_iff_getElem?

theorem mem_of_get? {s : Numbering α} {x : α} {i : Nat} (h : s.get? i = some x) : x ∈ s :=
  mem_iff_get?.mpr ⟨i, h⟩

theorem lt_size_of_get? {s : Numbering α} {x : α} {i : Nat} (h : s.get? i = some x) :
    i < s.size := (Array.getElem?_eq_some_iff.mp h).1

theorem exists_get?_of_lt {s : Numbering α} {i : Nat} (h : i < s.size) :
    ∃ x, s.get? i = some x := ⟨_, Array.getElem?_eq_getElem h⟩

/-- What is listed lies before all places that hold nothing. -/
theorem lt_of_get?_eq_none {s : Numbering α} {x : α} {i j : Nat} (hj : s.get? j = none)
    (hi : s.get? i = some x) : i < j :=
  Nat.lt_of_lt_of_le (lt_size_of_get? hi) (Array.getElem?_eq_none_iff.mp hj)

theorem get?_placeOf {s : Numbering α} {x : α} (h : x ∈ s) : s.get? (s.placeOf x) = some x := by
  obtain ⟨i, hi⟩ := mem_iff_get?.mp h
  rw [placeOf, place?_eq_some_iff.mpr hi]
  exact hi

/-- An element has one place. -/
theorem eq_of_get? {s : Numbering α} {x : α} {i j : Nat} (hi : s.get? i = some x)
    (hj : s.get? j = some x) : i = j :=
  Option.some.inj ((place?_eq_some_iff.mpr hi).symm.trans (place?_eq_some_iff.mpr hj))

/-- A numbering in which all elements have kept their places gives the same answer. -/
theorem placeOf_eq_of_get? {s t : Numbering α} {x : α} (hx : x ∈ s)
    (hkeep : ∀ i y, s.get? i = some y → t.get? i = some y) : t.placeOf x = s.placeOf x := by
  have hplace : t.get? (s.placeOf x) = some x := hkeep _ x (get?_placeOf hx)
  exact eq_of_get? (get?_placeOf (mem_of_get? hplace)) hplace

theorem nodup_toList (s : Numbering α) : s.toList.Nodup := by
  refine List.pairwise_iff_getElem.mpr fun i j hi hj hij heq => ?_
  have hgeti : s.get? i = some s.toList[i] := by simp [get?, toList]
  have hgetj : s.get? j = some s.toList[j] := by simp [get?, toList]
  exact absurd (eq_of_get? hgeti (heq ▸ hgetj)) (Nat.ne_of_lt hij)

theorem place?_eq_none_iff {s : Numbering α} {x : α} : s.place? x = none ↔ x ∉ s := by
  rw [Option.eq_none_iff_forall_ne_some, mem_iff_get?, not_exists]
  exact forall_congr' fun i => not_congr place?_eq_some_iff

instance (s : Numbering α) (x : α) : Decidable (x ∈ s) :=
  decidable_of_iff (s.place? x ≠ none) ((not_congr place?_eq_none_iff).trans Classical.not_not)

/-! ## Filling a numbering -/

variable [TransOrd α] [LawfulEqOrd α]

/-- The numbering of nothing. -/
def empty : Numbering α where
  elements := #[]
  places := ∅
  places_eq x i := by simp

omit [LawfulEqOrd α] in
theorem not_mem_empty (x : α) : ¬ x ∈ (empty : Numbering α) := by
  rw [mem_iff_get?]
  rintro ⟨i, hi⟩
  simp [get?, empty] at hi

theorem places_eq_push {s : Numbering α} {y : α} (h : s.places[y]? = none) (x : α) (i : Nat) :
    (s.places.insert y s.elements.size)[x]? = some i ↔ (s.elements.push y)[i]? = some x := by
  rw [TreeMap.getElem?_insert, Array.getElem?_push]
  by_cases hyx : y = x
  · subst hyx
    have hne : s.elements[i]? ≠ some y := fun hi => by
      rw [(s.places_eq y i).mpr hi] at h; cases h
    by_cases hi : i = s.elements.size
    · simp [hi]
    · simp [hi, hne, Ne.symm hi]
  · rw [if_neg (fun hc => hyx (LawfulEqCmp.eq_of_compare hc)), s.places_eq]
    by_cases hi : i = s.elements.size
    · simp [hi, hyx]
    · simp [hi]

/-- List `x` last, unless it is listed already. -/
def add (s : Numbering α) (x : α) : Numbering α :=
  match h : s.places[x]? with
  | some _ => s
  | none =>
    let places := s.places.insert x s.elements.size
    ⟨s.elements.push x, places, places_eq_push h⟩

/-- List several elements, in order. -/
def addAll (s : Numbering α) (l : List α) : Numbering α := l.foldl add s

variable {s : Numbering α}

theorem add_of_mem {x : α} (h : x ∈ s) : s.add x = s := by
  obtain ⟨i, hi⟩ := mem_iff_get?.mp h
  unfold add
  split
  · rfl
  · rename_i hnone
    rw [(s.places_eq x i).mpr hi] at hnone
    cases hnone

theorem elements_add_of_not_mem {x : α} (h : x ∉ s) :
    (s.add x).elements = s.elements.push x := by
  unfold add
  split
  · rename_i i hi
    exact absurd (mem_of_get? (place?_eq_some_iff.mp hi)) h
  · rfl

theorem size_add_of_not_mem {x : α} (h : x ∉ s) : (s.add x).size = s.size + 1 :=
  (congrArg Array.size (elements_add_of_not_mem h)).trans (Array.size_push x)

theorem mem_add {x y : α} : y ∈ s.add x ↔ y = x ∨ y ∈ s := by
  by_cases hx : x ∈ s
  · rw [add_of_mem hx]
    constructor
    · exact .inr
    · rintro (rfl | hy)
      · exact hx
      · exact hy
  · show y ∈ (s.add x).elements ↔ y = x ∨ y ∈ s.elements
    rw [elements_add_of_not_mem hx, Array.mem_push, or_comm]

@[simp] theorem mem_addAll {l : List α} {y : α} : y ∈ s.addAll l ↔ y ∈ l ∨ y ∈ s := by
  induction l generalizing s with
  | nil => simp [addAll]
  | cons x l ih =>
    refine (ih (s := s.add x)).trans ?_
    rw [mem_add, List.mem_cons, ← or_assoc, or_comm (a := y ∈ l)]

/-- What is listed keeps its place. -/
theorem get?_add_of_eq_some {x y : α} {i : Nat} (h : s.get? i = some y) :
    (s.add x).get? i = some y := by
  by_cases hx : x ∈ s
  · rw [add_of_mem hx]
    exact h
  · have hi := lt_size_of_get? h
    rw [get?, elements_add_of_not_mem hx]
    exact (Array.getElem?_push_lt hi).trans ((Array.getElem?_eq_getElem hi).symm.trans h)

/-- What is new takes the next place, and nothing else changes. -/
theorem get?_add {x : α} (h : x ∉ s) {i : Nat} :
    (s.add x).get? i = if i = s.size then some x else s.get? i := by
  rw [get?, elements_add_of_not_mem h, Array.getElem?_push]
  rfl

theorem get?_add_of_not_mem {x : α} (h : x ∉ s) : (s.add x).get? s.size = some x := by
  rw [get?_add h, if_pos rfl]

theorem get?_addAll_of_eq_some {l : List α} {y : α} {i : Nat} (h : s.get? i = some y) :
    (s.addAll l).get? i = some y := by
  induction l generalizing s with
  | nil => exact h
  | cons x l ih => exact ih (get?_add_of_eq_some h)

theorem size_le_size_addAll (l : List α) : s.size ≤ (s.addAll l).size := by
  refine Nat.le_of_not_lt fun hlt => ?_
  obtain ⟨x, hx⟩ := exists_get?_of_lt hlt
  exact absurd (lt_size_of_get? (get?_addAll_of_eq_some (l := l) hx)) (Nat.lt_irrefl _)

end Numbering

end GrammarAutomata
