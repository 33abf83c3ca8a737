import Std.Data.TreeSet

/-!
# Sorted sets

A finite set kept as its ascending list without repetitions. The list is the
canonical form: two sets with the same members are equal (`SortedSet.ext`), and
what a set answers never depends on the order in which it was filled.

Every listing this library shows is ascending: symbols by code point, words letter
by letter, states by number.
-/

namespace GrammarAutomata

open Std

/-- A finite set, listed in ascending order. -/
structure SortedSet (α : Type) [Ord α] where
  /-- the members, each once -/
  toList : List α
  /-- each member lies below all later ones -/
  sorted : toList.Pairwise fun a b => compare a b = .lt

namespace SortedSet

variable {α : Type} [Ord α]

instance : Membership α (SortedSet α) where
  mem s a := a ∈ s.toList

instance : EmptyCollection (SortedSet α) where
  emptyCollection := ⟨[], .nil⟩

instance : Singleton α (SortedSet α) where
  singleton a := ⟨[a], List.pairwise_singleton ..⟩

instance : Inhabited (SortedSet α) := ⟨∅⟩

instance [DecidableEq α] (a : α) (s : SortedSet α) : Decidable (a ∈ s) :=
  inferInstanceAs (Decidable (a ∈ s.toList))

/-- The number of members. -/
def size (s : SortedSet α) : Nat := s.toList.length

theorem eq_of_toList_eq {s t : SortedSet α} (h : s.toList = t.toList) : s = t := by
  cases s; cases t; cases h; rfl

instance [DecidableEq α] : DecidableEq (SortedSet α) := fun s t =>
  decidable_of_iff (s.toList = t.toList) ⟨eq_of_toList_eq, fun h => h ▸ rfl⟩

/-- Sets compare as their listings do. -/
instance : Ord (SortedSet α) where
  compare := compareOn toList

instance [TransOrd α] : TransOrd (SortedSet α) :=
  inferInstanceAs (TransCmp (compareOn toList))

instance [LawfulEqOrd α] : LawfulEqOrd (SortedSet α) where
  compare_self {s} := ReflCmp.compare_self (a := s.toList)
  eq_of_compare h := eq_of_toList_eq (LawfulEqCmp.eq_of_compare h)

@[simp] theorem mem_toList {a : α} {s : SortedSet α} : a ∈ s.toList ↔ a ∈ s := Iff.rfl

@[simp] theorem not_mem_empty (a : α) : ¬ a ∈ (∅ : SortedSet α) := List.not_mem_nil

@[simp] theorem mem_singleton {a b : α} : a ∈ ({b} : SortedSet α) ↔ a = b :=
  List.mem_singleton

/-- The members that `p` holds of. -/
def filter (p : α → Bool) (s : SortedSet α) : SortedSet α := ⟨s.toList.filter p, s.sorted.filter p⟩

@[simp] theorem mem_filter {a : α} {p : α → Bool} {s : SortedSet α} :
    a ∈ s.filter p ↔ a ∈ s ∧ p a := List.mem_filter

/-! ## Filling a set -/

variable [TransOrd α] [LawfulEqOrd α]

/-- Put `a` into an ascending list at its place, unless it is there already. -/
def insertSorted (a : α) : List α → List α
  | [] => [a]
  | b :: l =>
    match compare a b with
    | .lt => a :: b :: l
    | .eq => b :: l
    | .gt => b :: insertSorted a l

omit [TransOrd α] in
theorem mem_insertSorted {a x : α} {l : List α} : x ∈ insertSorted a l ↔ x = a ∨ x ∈ l := by
  induction l with
  | nil => simp [insertSorted]
  | cons b l ih =>
    unfold insertSorted
    split
    · simp
    · rename_i h
      obtain rfl := LawfulEqCmp.eq_of_compare h
      simp
    · rw [List.mem_cons, List.mem_cons, ih, or_left_comm]

theorem pairwise_insertSorted {a : α} {l : List α}
    (hl : l.Pairwise fun a b => compare a b = .lt) :
    (insertSorted a l).Pairwise fun a b => compare a b = .lt := by
  induction l with
  | nil => exact List.pairwise_singleton ..
  | cons b l ih =>
    obtain ⟨hb, hl'⟩ := List.pairwise_cons.mp hl
    unfold insertSorted
    split
    · rename_i hab
      refine List.pairwise_cons.mpr ⟨fun x hx => ?_, hl⟩
      rcases List.mem_cons.mp hx with rfl | hx
      · exact hab
      · exact TransCmp.lt_trans hab (hb x hx)
    · exact hl
    · rename_i hab
      refine List.pairwise_cons.mpr ⟨fun x hx => ?_, ih hl'⟩
      rcases mem_insertSorted.mp hx with rfl | hx
      · exact OrientedCmp.gt_iff_lt.mp hab
      · exact hb x hx

instance : Insert α (SortedSet α) where
  insert a s := ⟨insertSorted a s.toList, pairwise_insertSorted s.sorted⟩

/-- The set of the members of a list, which is sorted by means of a search
tree. -/
def ofList (l : List α) : SortedSet α := ⟨(TreeSet.ofList l).toList, TreeSet.ordered_toList⟩

@[simp] theorem mem_insert {a x : α} {s : SortedSet α} : x ∈ insert a s ↔ x = a ∨ x ∈ s :=
  mem_insertSorted

@[simp] theorem mem_ofList {x : α} {l : List α} : x ∈ ofList l ↔ x ∈ l := by
  classical exact TreeSet.mem_toList.trans (TreeSet.mem_ofList.trans List.contains_iff_mem)

/-- The members of both sets. -/
instance : Union (SortedSet α) where
  union s t := ofList (s.toList ++ t.toList)

@[simp] theorem mem_union {x : α} {s t : SortedSet α} : x ∈ s ∪ t ↔ x ∈ s ∨ x ∈ t :=
  mem_ofList.trans List.mem_append

omit [LawfulEqOrd α] in
/-- An element lies below no equal one. -/
theorem ne_of_compare {a b : α} (h : compare a b = .lt) : a ≠ b := by
  rintro rfl
  cases (ReflCmp.compare_self (a := a)).symm.trans h

omit [LawfulEqOrd α] in
/-- No member is listed twice. -/
theorem nodup_toList (s : SortedSet α) : s.toList.Nodup := s.sorted.imp ne_of_compare

omit [LawfulEqOrd α] in
/-- Lists that are ascending by some key are equal if they have the same members. -/
theorem eq_of_pairwise_compare {β : Type} (key : β → α) {l m : List β}
    (hl : l.Pairwise fun a b => compare (key a) (key b) = .lt)
    (hm : m.Pairwise fun a b => compare (key a) (key b) = .lt) (h : ∀ x, x ∈ l ↔ x ∈ m) :
    l = m := by
  induction l generalizing m with
  | nil =>
    cases m with
    | nil => rfl
    | cons b m => simpa using h b
  | cons a l ih =>
    cases m with
    | nil => simpa using h a
    | cons b m =>
      obtain ⟨ha, hl'⟩ := List.pairwise_cons.mp hl
      obtain ⟨hb, hm'⟩ := List.pairwise_cons.mp hm
      have hab : a = b := by
        have h₁ := (h a).mp List.mem_cons_self
        have h₂ := (h b).mpr List.mem_cons_self
        rcases List.mem_cons.mp h₁ with h₁ | h₁
        · exact h₁
        · rcases List.mem_cons.mp h₂ with h₂ | h₂
          · exact h₂.symm
          · have := OrientedCmp.gt_iff_lt.mpr (ha b h₂)
            rw [hb a h₁] at this
            cases this
      subst hab
      rw [ih hl' hm' fun x => ?_]
      have hx := h x
      rw [List.mem_cons, List.mem_cons] at hx
      constructor
      · intro hmem
        exact (hx.mp (.inr hmem)).resolve_left fun heq => ne_of_compare (ha x hmem) (heq ▸ rfl)
      · intro hmem
        exact (hx.mpr (.inr hmem)).resolve_left fun heq => ne_of_compare (hb x hmem) (heq ▸ rfl)

omit [LawfulEqOrd α] in
/-- A set is determined by its members. -/
theorem ext {s t : SortedSet α} (h : ∀ x, x ∈ s ↔ x ∈ t) : s = t :=
  eq_of_toList_eq (eq_of_pairwise_compare id s.sorted t.sorted h)

omit [LawfulEqOrd α] in
theorem eq_empty_iff {s : SortedSet α} : s = ∅ ↔ ∀ x, x ∉ s :=
  ⟨fun h x => h ▸ not_mem_empty x, fun h => ext fun x => iff_of_false (h x) (not_mem_empty x)⟩

/-- Filling a set with its own listing gives it back. -/
@[simp] theorem ofList_toList (s : SortedSet α) : ofList s.toList = s :=
  ext fun _ => mem_ofList

/-! ## Sets of numbers -/

/-- The sets of numbers below `n`. -/
def below : Nat → List (SortedSet Nat)
  | 0 => [∅]
  | n + 1 => below n ++ (below n).map (insert n)

@[simp] theorem length_below (n : Nat) : (below n).length = Nat.pow 2 n := by
  induction n with
  | zero => rfl
  | succ n ih =>
    rw [below, List.length_append, List.length_map, ih]
    exact (Nat.mul_two _).symm

theorem mem_below {n : Nat} {s : SortedSet Nat} (h : ∀ q ∈ s, q < n) : s ∈ below n := by
  induction n generalizing s with
  | zero =>
    have hs : s = ∅ := ext fun q => ⟨fun hq => absurd (h q hq) (Nat.not_lt_zero q),
      fun hq => absurd hq (not_mem_empty q)⟩
    exact hs ▸ List.mem_singleton.mpr rfl
  | succ n ih =>
    have hlt : ∀ q ∈ s, q ≠ n → q < n := fun q hq hne =>
      Nat.lt_of_le_of_ne (Nat.le_of_lt_succ (h q hq)) hne
    by_cases hn : n ∈ s
    · have hs : insert n (s.filter (· ≠ n)) = s := ext fun q => by
        rw [mem_insert, mem_filter]
        by_cases hq : q = n
        · simp [hq, hn]
        · simp [hq]
      refine List.mem_append_right _ (List.mem_map.mpr ⟨s.filter (· ≠ n), ih fun q hq => ?_, hs⟩)
      obtain ⟨hq, hne⟩ := mem_filter.mp hq
      exact hlt q hq (of_decide_eq_true hne)
    · exact List.mem_append_left _ (ih fun q hq => hlt q hq fun heq => hn (heq ▸ hq))

/-- There are no more than `2 ^ n` different sets of numbers below `n`. -/
theorem length_le_pow {n : Nat} {l : List (SortedSet Nat)} (hl : l.Nodup)
    (h : ∀ s ∈ l, ∀ q ∈ s, q < n) : l.length ≤ Nat.pow 2 n := by
  have := hl.length_le_of_subset fun s hs => mem_below (h s hs)
  rwa [length_below] at this

end SortedSet

end GrammarAutomata
