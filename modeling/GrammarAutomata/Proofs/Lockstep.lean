import GrammarAutomata.Search
import Mathlib.Data.List.Forall2

/-!
# Searches in lockstep

Two searches that begin with related elements and go on from related elements to
related ones, in the same order, have related elements at the same places
(`Numbering.Paired.explore`). The relation has to be one to one: what the one search
knows already must not be new to the other.
-/

namespace GrammarAutomata

namespace Numbering

variable {α β : Type} [Ord α] [Ord β] {M : α → β → Prop} {s : Numbering α} {t : Numbering β}
  {x : α} {y : β}

/-- At each place there are related elements in both, or there is none in either. -/
def Paired (M : α → β → Prop) (s : Numbering α) (t : Numbering β) : Prop :=
  ∀ i, Option.Rel M (s.get? i) (t.get? i)

namespace Paired

theorem exists_of_get? (h : Paired M s t) {i : Nat} (hx : s.get? i = some x) :
    ∃ y, t.get? i = some y ∧ M x y := by
  have hi := h i
  rw [hx] at hi
  generalize t.get? i = y? at hi
  cases hi with
  | some hxy => exact ⟨_, rfl, hxy⟩

theorem symm (h : Paired M s t) : Paired (fun y x => M x y) t s := by
  intro i
  have hi := h i
  generalize s.get? i = x?, t.get? i = y? at hi ⊢
  cases hi with
  | some hxy => exact .some hxy
  | none => exact .none

theorem size_le (h : Paired M s t) : s.size ≤ t.size := by
  refine Nat.le_of_not_lt fun hlt => ?_
  obtain ⟨x, hx⟩ := exists_get?_of_lt hlt
  obtain ⟨y, hy, _⟩ := h.exists_of_get? hx
  exact absurd (lt_size_of_get? hy) (Nat.lt_irrefl _)

theorem size_eq (h : Paired M s t) : s.size = t.size := Nat.le_antisymm h.size_le h.symm.size_le

/-- Related elements have the same place, if they have one. -/
theorem get?_iff (hM : Relator.BiUnique M) (h : Paired M s t) (hxy : M x y) {i : Nat} :
    s.get? i = some x ↔ t.get? i = some y := by
  refine ⟨fun hx => ?_, fun hy => ?_⟩
  · obtain ⟨y', hy', hxy'⟩ := h.exists_of_get? hx
    rw [hy', hM.2 hxy' hxy]
  · obtain ⟨x', hx', hxy'⟩ := h.symm.exists_of_get? hy
    rw [hx', hM.1 hxy' hxy]

theorem mem_iff (hM : Relator.BiUnique M) (h : Paired M s t) (hxy : M x y) : x ∈ s ↔ y ∈ t := by
  rw [mem_iff_get?, mem_iff_get?]
  exact exists_congr fun i => h.get?_iff hM hxy

theorem placeOf_eq (hM : Relator.BiUnique M) (h : Paired M s t) (hxy : M x y) :
    s.placeOf x = t.placeOf y := by
  have hplace : s.place? x = t.place? y := Option.ext fun i => by
    rw [place?_eq_some_iff, place?_eq_some_iff, h.get?_iff hM hxy]
  rw [placeOf, placeOf, hplace, h.size_eq]

variable [Std.TransOrd α] [Std.LawfulEqOrd α] [Std.TransOrd β] [Std.LawfulEqOrd β]

omit [Std.LawfulEqOrd α] [Std.LawfulEqOrd β] in
theorem empty : Paired M (empty : Numbering α) (Numbering.empty : Numbering β) := fun _ => .none

/-- A new element takes the next place, in both. -/
theorem add (hM : Relator.BiUnique M) (h : Paired M s t) (hxy : M x y) :
    Paired M (s.add x) (t.add y) := by
  by_cases hx : x ∈ s
  · rw [add_of_mem hx, add_of_mem ((h.mem_iff hM hxy).mp hx)]
    exact h
  · intro i
    rw [get?_add hx, get?_add (mt (h.mem_iff hM hxy).mpr hx), h.size_eq]
    split
    · exact .some hxy
    · exact h i

theorem addAll (hM : Relator.BiUnique M) (h : Paired M s t) {l : List α} {m : List β}
    (hlm : List.Forall₂ M l m) : Paired M (s.addAll l) (t.addAll m) := by
  induction hlm generalizing s t with
  | nil => exact h
  | cons hxy _ ih => exact ih (h.add hM hxy)

/-! ## Searches -/

variable {S : Space α} {S' : Space β} {limit : Option Nat}

theorem exploreFrom (hM : Relator.BiUnique M)
    (hsucc : ∀ x y, M x y → List.Forall₂ M (S.succ x) (S'.succ y)) {next : Nat}
    (hs : S.Contains s) (ht : S'.Contains t) (h : Paired M s t) :
    Paired M (S.exploreFrom limit s next hs) (S'.exploreFrom limit t next ht) := by
  fun_induction S.exploreFrom limit s next hs generalizing t with
  | case1 s next hs hnone =>
    have hnone' : t.get? next = none := Option.eq_none_iff_forall_ne_some.mpr fun y hy => by
      obtain ⟨x, hx, _⟩ := h.symm.exists_of_get? hy
      cases hnone.symm.trans hx
    rw [Space.exploreFrom_of_get?_eq_none ht hnone']
    exact h
  | case2 s next hs x hx hexceeds =>
    obtain ⟨y, hy, hxy⟩ := h.exists_of_get? hx
    rw [Space.exploreFrom_of_get?_eq_some ht hy, ← h.size_eq, if_pos hexceeds]
    exact h
  | case3 s next hs x hx hexceeds ih =>
    obtain ⟨y, hy, hxy⟩ := h.exists_of_get? hx
    rw [Space.exploreFrom_of_get?_eq_some ht hy, ← h.size_eq, if_neg hexceeds]
    exact ih _ (h.addAll hM (hsucc x y hxy))

/-- Searches that go on alike find alike, with or without a limit. -/
theorem explore (hM : Relator.BiUnique M)
    (hsucc : ∀ x y, M x y → List.Forall₂ M (S.succ x) (S'.succ y)) {sources : List α}
    {sources' : List β} (hsources : List.Forall₂ M sources sources') {hs ht} :
    Paired M (S.explore limit sources hs) (S'.explore limit sources' ht) :=
  exploreFrom hM hsucc _ _ (Paired.empty.addAll hM hsources)

end Paired

end Numbering

end GrammarAutomata
