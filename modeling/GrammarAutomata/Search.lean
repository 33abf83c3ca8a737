import GrammarAutomata.Numbering

/-!
# Breadth-first search in a finite space

The one loop of this library. Epsilon closures, subset construction, the
enumeration of a grammar's words and the reachable states of an automaton all
list what can be reached from some first elements; they differ in the space.

The elements are numbered in order of discovery; the search goes through them by
number and adds their successors at the end. What it finds contains the sources
(`mem_explore_of_mem`), is closed under successors (`explore_closed`), and holds
nothing else (`explore_induction`); taken as a loop that nothing makes end, it ends
all the same (`rounds_explore`). A search with a limit finds the same whenever
that has at most `k` elements, and otherwise a beginning of it that has more
(`explore_limit_eq`, `lt_size_explore_limit`).
-/

namespace GrammarAutomata

/-- A set of elements that successors never leave and that holds only boundedly
many. -/
structure Space (α : Type) where
  /-- what one step leads to, in the order in which it is looked at -/
  succ : α → List α
  /-- the elements that belong to the space -/
  Mem : α → Prop
  /-- successors stay in the space -/
  succ_mem : ∀ {x y : α}, Mem x → y ∈ succ x → Mem y
  /-- how many elements there can be; a function, so that a search never
  computes it -/
  bound : Unit → Nat
  /-- no more than that many different elements belong to the space -/
  length_le : ∀ l : List α, l.Nodup → (∀ x ∈ l, Mem x) → l.length ≤ bound ()

namespace Space

variable {α : Type} [Ord α] [Std.TransOrd α] [Std.LawfulEqOrd α]

/-! ## The search -/

variable (S : Space α)

/-- Everything found so far belongs to the space. -/
def Contains (known : Numbering α) : Prop := ∀ x ∈ known, S.Mem x

variable {S}

omit [Std.TransOrd α] [Std.LawfulEqOrd α] in
theorem Contains.size_le {known : Numbering α} (h : S.Contains known) :
    known.size ≤ S.bound () := by
  rw [← Numbering.length_toList]
  exact S.length_le _ known.nodup_toList fun x hx => h x (Numbering.mem_toList.mp hx)

theorem contains_addAll_empty {sources : List α} (h : ∀ x ∈ sources, S.Mem x) :
    S.Contains (Numbering.empty.addAll sources) := fun x hx =>
  (Numbering.mem_addAll.mp hx).elim (h x) fun h => absurd h (Numbering.not_mem_empty x)

/-- Adding the successors of something found stays in the space. -/
theorem Contains.addAll {known : Numbering α} (h : S.Contains known) {i : Nat} {x : α}
    (hx : known.get? i = some x) : S.Contains (known.addAll (S.succ x)) := fun y hy =>
  (Numbering.mem_addAll.mp hy).elim
    (S.succ_mem (h x (Numbering.mem_of_get? hx))) (h y)

variable (S)

/-- Whether a number is above the limit. -/
def exceeds (limit : Option Nat) (size : Nat) : Bool :=
  match limit with
  | none => false
  | some k => k < size

/-- Go on where the successors of the first `next` elements are known. Ends at
once when more than `limit` elements are known. -/
def exploreFrom (limit : Option Nat) (known : Numbering α) (next : Nat) (h : S.Contains known) :
    Numbering α :=
  match hx : known.get? next with
  | none => known
  | some x =>
    if exceeds limit known.size then known
    else exploreFrom limit (known.addAll (S.succ x)) (next + 1) (h.addAll hx)
termination_by S.bound () - next
decreasing_by
  have hlt := Numbering.lt_size_of_get? hx
  have hle := h.size_le
  omega

/-- All elements reachable from the sources, in order of discovery; or, once
more than `limit` are known, those found by then. -/
def explore (limit : Option Nat) (sources : List α) (h : ∀ x ∈ sources, S.Mem x) : Numbering α :=
  S.exploreFrom limit (Numbering.empty.addAll sources) 0 (contains_addAll_empty h)

/-! ## What the search finds -/

variable {S} {limit : Option Nat} {known : Numbering α} {next : Nat} {sources : List α}

/-- Where no element is left, the search is over. -/
theorem exploreFrom_of_get?_eq_none (h : S.Contains known) (hnone : known.get? next = none) :
    S.exploreFrom limit known next h = known := by
  rw [exploreFrom.eq_def]
  split
  · rfl
  · rename_i x hx
    cases hnone.symm.trans hx

/-- Where one is, it goes on behind it, unless too many are known. -/
theorem exploreFrom_of_get?_eq_some (h : S.Contains known) {x : α} (hx : known.get? next = some x) :
    S.exploreFrom limit known next h = if exceeds limit known.size then known
      else S.exploreFrom limit (known.addAll (S.succ x)) (next + 1) (h.addAll hx) := by
  rw [exploreFrom.eq_def]
  split
  · rename_i hnone
    cases hnone.symm.trans hx
  · rename_i y hy
    obtain rfl := Option.some.inj (hx.symm.trans hy)
    rfl

theorem contains_exploreFrom (h : S.Contains known) :
    S.Contains (S.exploreFrom limit known next h) := by
  fun_induction exploreFrom S limit known next h with
  | case1 known next h => exact h
  | case2 known next h => exact h
  | case3 known next h x hx hlim ih => exact ih

/-- What is known keeps its place. -/
theorem get?_exploreFrom_of_eq_some (h : S.Contains known) {i : Nat} {y : α}
    (hy : known.get? i = some y) : (S.exploreFrom limit known next h).get? i = some y := by
  fun_induction exploreFrom S limit known next h with
  | case1 known next h => exact hy
  | case2 known next h => exact hy
  | case3 known next h x hx hlim ih => exact ih (Numbering.get?_addAll_of_eq_some hy)

/-- Nothing known is forgotten. -/
theorem mem_exploreFrom_of_mem (h : S.Contains known) {x : α} (hx : x ∈ known) :
    x ∈ S.exploreFrom limit known next h := by
  obtain ⟨i, hi⟩ := Numbering.mem_iff_get?.mp hx
  exact Numbering.mem_of_get? (get?_exploreFrom_of_eq_some h hi)

/-- A property that holds of all known elements and passes to successors holds
of all elements found. -/
theorem exploreFrom_induction {P : α → Prop} (h : S.Contains known)
    (base : ∀ x ∈ known, P x) (step : ∀ x y, P x → y ∈ S.succ x → P y) :
    ∀ x ∈ S.exploreFrom limit known next h, P x := by
  fun_induction exploreFrom S limit known next h with
  | case1 known next h => exact base
  | case2 known next h => exact base
  | case3 known next h x hx hlim ih =>
    refine ih fun y hy => ?_
    rcases Numbering.mem_addAll.mp hy with hy | hy
    · exact step x y (base x (Numbering.mem_of_get? hx)) hy
    · exact base y hy

/-- Without a limit what is found is closed under successors. -/
theorem exploreFrom_closed (h : S.Contains known)
    (closed : ∀ i x, i < next → known.get? i = some x → ∀ y ∈ S.succ x, y ∈ known) :
    ∀ x ∈ S.exploreFrom none known next h, ∀ y ∈ S.succ x,
      y ∈ S.exploreFrom none known next h := by
  generalize hlim : (none : Option Nat) = limit
  fun_induction exploreFrom S limit known next h with
  | case1 known next h hnone =>
    intro x hx
    obtain ⟨i, hi⟩ := Numbering.mem_iff_get?.mp hx
    refine closed i x (Nat.lt_of_not_le fun hle => ?_) hi
    exact Nat.not_lt.mpr hle (Numbering.lt_of_get?_eq_none hnone hi)
  | case2 known next h x hx hex => subst hlim; simp [exceeds] at hex
  | case3 known next h x hx hex ih =>
    refine ih fun i z hi hz y hy => ?_
    rcases Nat.lt_or_eq_of_le (Nat.le_of_lt_succ hi) with hlt | rfl
    · have hi := Nat.lt_trans hlt (Numbering.lt_size_of_get? hx)
      obtain ⟨w, hw⟩ := Numbering.exists_get?_of_lt hi
      obtain rfl := Option.some.inj ((Numbering.get?_addAll_of_eq_some hw).symm.trans hz)
      exact Numbering.mem_addAll.mpr (.inr (closed i w hlt hw y hy))
    · obtain rfl := Option.some.inj ((Numbering.get?_addAll_of_eq_some hx).symm.trans hz)
      exact Numbering.mem_addAll.mpr (.inl hy)

/-- A search never loses elements, so it finds at least as many as it began
with. -/
theorem size_le_exploreFrom (h : S.Contains known) :
    known.size ≤ (S.exploreFrom limit known next h).size := by
  fun_induction exploreFrom S limit known next h with
  | case1 known next h => exact Nat.le_refl _
  | case2 known next h => exact Nat.le_refl _
  | case3 known next h x hx hlim ih => exact Nat.le_trans (Numbering.size_le_size_addAll _) ih

/-- The limit does not show in what keeps to it. -/
theorem exploreFrom_limit_eq {k : Nat} (h : S.Contains known)
    (hk : (S.exploreFrom none known next h).size ≤ k) :
    S.exploreFrom (some k) known next h = S.exploreFrom none known next h := by
  generalize hlim : (none : Option Nat) = limit at hk ⊢
  fun_induction exploreFrom S limit known next h with
  | case1 known next h hnone => exact exploreFrom_of_get?_eq_none h hnone
  | case2 known next h x hx hex => subst hlim; simp [exceeds] at hex
  | case3 known next h x hx hex ih =>
    have hsize : ¬ exceeds (some k) known.size = true := by
      have := Nat.le_trans (Numbering.size_le_size_addAll _)
        (Nat.le_trans (size_le_exploreFrom (h.addAll hx)) hk)
      simpa [exceeds] using this
    rw [← ih hk, exploreFrom_of_get?_eq_some h hx, if_neg hsize]

/-- A limit that is passed shows in the size. -/
theorem lt_size_exploreFrom_limit {k : Nat} (h : S.Contains known)
    (hk : k < (S.exploreFrom none known next h).size) :
    k < (S.exploreFrom (some k) known next h).size := by
  generalize hlim : (none : Option Nat) = limit at hk
  fun_induction exploreFrom S limit known next h with
  | case1 known next h hnone => exact Nat.lt_of_lt_of_le hk (size_le_exploreFrom h)
  | case2 known next h x hx hex => subst hlim; simp [exceeds] at hex
  | case3 known next h x hx hex ih =>
    rw [exploreFrom_of_get?_eq_some h hx]
    split
    · rename_i hlt
      simpa [exceeds] using hlt
    · exact ih hk

/-! ## The search as a loop -/

/-- The loop without anything that makes it end: as long as there is an element
whose successors have not been added, another round adds them. Here it begins with
`known` elements of which `next` have been gone through, and it comes to a stop
after `rounds` rounds, when `found` is known. -/
inductive Rounds (succ : α → List α) : Numbering α → Nat → Nat → Numbering α → Prop
  | stop {known : Numbering α} {next : Nat} : known.get? next = none →
    Rounds succ known next 0 known
  | round {known found : Numbering α} {next rounds : Nat} {x : α} : known.get? next = some x →
    Rounds succ (known.addAll (succ x)) (next + 1) rounds found →
    Rounds succ known next (rounds + 1) found

/-- What is known keeps its place in the loop. -/
theorem Rounds.get?_of_eq_some {succ : α → List α} {rounds : Nat} {found : Numbering α}
    (h : Rounds succ known next rounds found) {i : Nat} {y : α} (hy : known.get? i = some y) :
    found.get? i = some y := by
  induction h with
  | stop => exact hy
  | round _ _ ih => exact ih (Numbering.get?_addAll_of_eq_some hy)

theorem Rounds.size_le {succ : α → List α} {rounds : Nat} {found : Numbering α}
    (h : Rounds succ known next rounds found) : known.size ≤ found.size := by
  induction h with
  | stop => exact Nat.le_refl _
  | round _ _ ih => exact Nat.le_trans (Numbering.size_le_size_addAll _) ih

/-- In a space the loop ends, with what the search finds. It takes one round for
each element. -/
theorem rounds_exploreFrom (h : S.Contains known) (hnext : next ≤ known.size) :
    ∃ rounds, rounds + next = (S.exploreFrom none known next h).size ∧
      Rounds S.succ known next rounds (S.exploreFrom none known next h) := by
  generalize hlim : (none : Option Nat) = limit
  fun_induction exploreFrom S limit known next h with
  | case1 known next h hx =>
    refine ⟨0, ?_, .stop hx⟩
    have hle : known.size ≤ next := Array.getElem?_eq_none_iff.mp hx
    omega
  | case2 known next h x hx hex => subst hlim; simp [exceeds] at hex
  | case3 known next h x hx hex ih =>
    have hlt := Numbering.lt_size_of_get? hx
    have hle := Numbering.size_le_size_addAll (s := known) (S.succ x)
    obtain ⟨rounds, hsize, hrounds⟩ := ih (by omega)
    exact ⟨rounds + 1, by omega, .round hx hrounds⟩

variable (h : ∀ x ∈ sources, S.Mem x)

/-- What is found stays in the space. -/
theorem contains_explore : S.Contains (S.explore limit sources h) := contains_exploreFrom _

theorem mem_explore_of_mem {x : α} (hx : x ∈ sources) : x ∈ S.explore limit sources h :=
  mem_exploreFrom_of_mem _ (Numbering.mem_addAll.mpr (.inl hx))

/-- What holds of the sources and passes to successors holds of all that is
found. -/
theorem explore_induction {P : α → Prop} (source : ∀ x ∈ sources, P x)
    (step : ∀ x y, P x → y ∈ S.succ x → P y) : ∀ x ∈ S.explore limit sources h, P x :=
  exploreFrom_induction _ (fun x hx => (Numbering.mem_addAll.mp hx).elim (source x)
    fun h => absurd h (Numbering.not_mem_empty x)) step

/-- Without a limit every successor of a found element is found. -/
theorem explore_closed {x y : α} (hx : x ∈ S.explore none sources h) (hy : y ∈ S.succ x) :
    y ∈ S.explore none sources h :=
  exploreFrom_closed _ (fun _ _ hi => absurd hi (Nat.not_lt_zero _)) x hx y hy

/-- The loop ends after at most as many rounds as there can be elements. -/
theorem rounds_explore : ∃ rounds, rounds ≤ S.bound () ∧
    Rounds S.succ (Numbering.empty.addAll sources) 0 rounds (S.explore none sources h) := by
  obtain ⟨rounds, hsize, hrounds⟩ :=
    rounds_exploreFrom (contains_addAll_empty h) (Nat.zero_le _)
  refine ⟨rounds, ?_, hrounds⟩
  rw [Nat.add_zero] at hsize
  exact hsize ▸ (contains_exploreFrom _).size_le

theorem explore_limit_eq {k : Nat} (hk : (S.explore none sources h).size ≤ k) :
    S.explore (some k) sources h = S.explore none sources h :=
  exploreFrom_limit_eq _ hk

theorem lt_size_explore_limit {k : Nat} (hk : k < (S.explore none sources h).size) :
    k < (S.explore (some k) sources h).size :=
  lt_size_exploreFrom_limit _ hk

end Space

end GrammarAutomata
