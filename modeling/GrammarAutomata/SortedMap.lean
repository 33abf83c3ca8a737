import GrammarAutomata.SortedSet

/-!
# Sorted maps

A finite map kept as the list of its entries, ascending by key and with each key once.
As with sets the list is the canonical form: two maps in which the same is found for each
key are equal (`SortedMap.ext`).

What stands for a key is changed in place (`SortedMap.upsert`), be there an entry for it
already or not.
-/

namespace GrammarAutomata

open Std

/-- A finite map, listed by key in ascending order. -/
structure SortedMap (κ ν : Type) [Ord κ] where
  /-- the keys with their values -/
  entries : List (κ × ν)
  /-- each key lies below all later ones -/
  sorted : entries.Pairwise fun a b => compare a.1 b.1 = .lt
  deriving DecidableEq

namespace SortedMap

variable {κ ν : Type} [Ord κ]

theorem eq_of_entries_eq {m m' : SortedMap κ ν} (h : m.entries = m'.entries) : m = m' := by
  cases m; cases m'; cases h; rfl

/-- The map without entries. -/
def empty : SortedMap κ ν := ⟨[], .nil⟩

variable [DecidableEq κ]

/-- What stands for `k`, if anything does. -/
def get? (m : SortedMap κ ν) (k : κ) : Option ν := (m.entries.find? fun e => e.1 = k).map (·.2)

variable [TransOrd κ] {k k' : κ} {v : ν} {f : Option ν → ν} {l : List (κ × ν)}
  {m m' : SortedMap κ ν}

/-- What is listed for a key is what is found for it. -/
theorem mem_entries_iff : (k, v) ∈ m.entries ↔ m.get? k = some v := by
  obtain ⟨l, hl⟩ := m
  show (k, v) ∈ l ↔ (l.find? fun e => e.1 = k).map (·.2) = some v
  induction l with
  | nil => simp
  | cons e l ih =>
    obtain ⟨he, hl⟩ := List.pairwise_cons.mp hl
    by_cases hk : e.1 = k
    · -- later entries are for other keys
      have hnot : (k, v) ∉ l := fun h => SortedSet.ne_of_compare (he _ h) hk
      rw [List.find?_cons_of_pos (by simpa using hk), List.mem_cons, or_iff_left hnot]
      obtain ⟨k', v'⟩ := e
      obtain rfl : k' = k := hk
      simp [eq_comm]
    · have hne : (k, v) ≠ e := fun h => hk (h ▸ rfl)
      rw [List.find?_cons_of_neg (by simpa using hk), List.mem_cons, or_iff_right hne]
      exact ih hl

/-- A map is determined by what is found in it. -/
theorem ext (h : ∀ k, m.get? k = m'.get? k) : m = m' :=
  eq_of_entries_eq <| SortedSet.eq_of_pairwise_compare Prod.fst m.sorted m'.sorted fun e => by
    rw [mem_entries_iff, mem_entries_iff, h]

/-! ## Filling a map -/

/-- Put at its place in an ascending list what `f` makes of the value for `k`, or of there
being none. -/
def upsertSorted (k : κ) (f : Option ν → ν) : List (κ × ν) → List (κ × ν)
  | [] => [(k, f none)]
  | e :: l =>
    match compare k e.1 with
    | .lt => (k, f none) :: e :: l
    | .eq => (k, f (some e.2)) :: l
    | .gt => e :: upsertSorted k f l

variable [LawfulEqOrd κ]

omit [DecidableEq κ] [TransOrd κ] [LawfulEqOrd κ] in
theorem mem_upsertSorted {e : κ × ν} (h : e ∈ upsertSorted k f l) : e.1 = k ∨ e ∈ l := by
  induction l with
  | nil => exact .inl (List.mem_singleton.mp h ▸ rfl)
  | cons d l ih =>
    unfold upsertSorted at h
    split at h
    · exact (List.mem_cons.mp h).imp_left (congrArg Prod.fst)
    · exact (List.mem_cons.mp h).imp (congrArg Prod.fst) (List.mem_cons_of_mem _)
    · rcases List.mem_cons.mp h with rfl | h
      · exact .inr List.mem_cons_self
      · exact (ih h).imp_right (List.mem_cons_of_mem _)

omit [DecidableEq κ] in
theorem pairwise_upsertSorted (hl : l.Pairwise fun a b => compare a.1 b.1 = .lt) :
    (upsertSorted k f l).Pairwise fun a b => compare a.1 b.1 = .lt := by
  induction l with
  | nil => exact List.pairwise_singleton ..
  | cons d l ih =>
    obtain ⟨hd, hl'⟩ := List.pairwise_cons.mp hl
    unfold upsertSorted
    split
    · rename_i hkd
      refine List.pairwise_cons.mpr ⟨fun e he => ?_, hl⟩
      rcases List.mem_cons.mp he with rfl | he
      · exact hkd
      · exact TransCmp.lt_trans hkd (hd e he)
    · rename_i hkd
      have heq : k = d.1 := LawfulEqCmp.eq_of_compare hkd
      exact List.pairwise_cons.mpr ⟨fun e he => heq ▸ hd e he, hl'⟩
    · rename_i hkd
      refine List.pairwise_cons.mpr ⟨fun e he => ?_, ih hl'⟩
      rcases mem_upsertSorted he with heq | he
      · rw [heq]
        exact OrientedCmp.gt_iff_lt.mp hkd
      · exact hd e he

omit [LawfulEqOrd κ] in
/-- Nothing stands for what lies below all keys. -/
theorem find?_eq_none_of_lt (h : ∀ e ∈ l, compare k e.1 = .lt) :
    (l.find? fun e => e.1 = k) = none :=
  List.find?_eq_none.mpr fun e he heq =>
    SortedSet.ne_of_compare (h e he) (of_decide_eq_true heq).symm

theorem find?_upsertSorted (hl : l.Pairwise fun a b => compare a.1 b.1 = .lt) :
    ((upsertSorted k f l).find? fun e => e.1 = k').map (·.2) =
      if k' = k then some (f ((l.find? fun e => e.1 = k).map (·.2)))
      else (l.find? fun e => e.1 = k').map (·.2) := by
  induction l with
  | nil =>
    by_cases hk : k' = k
    · simp [upsertSorted, hk]
    · simp [upsertSorted, hk, Ne.symm hk]
  | cons d l ih =>
    obtain ⟨hd, hl'⟩ := List.pairwise_cons.mp hl
    unfold upsertSorted
    split
    · rename_i hkd
      have hnone : ((d :: l).find? fun e => e.1 = k) = none := by
        refine find?_eq_none_of_lt fun e he => ?_
        rcases List.mem_cons.mp he with rfl | he
        · exact hkd
        · exact TransCmp.lt_trans hkd (hd e he)
      rw [hnone]
      by_cases hk : k' = k
      · simp [hk]
      · simp [hk, Ne.symm hk]
    · rename_i hkd
      obtain ⟨k₁, v⟩ := d
      obtain rfl : k = k₁ := LawfulEqCmp.eq_of_compare hkd
      by_cases hk : k' = k
      · simp [hk]
      · simp [hk, Ne.symm hk]
    · rename_i hkd
      have hne : d.1 ≠ k := SortedSet.ne_of_compare (OrientedCmp.gt_iff_lt.mp hkd)
      by_cases hk : d.1 = k'
      · -- the entry that stays in front is the one that is looked for
        have hne' : k' ≠ k := fun heq => hne (hk.trans heq)
        simp [hk, hne']
      · rw [List.find?_cons_of_neg (by simpa using hk), ih hl',
          List.find?_cons_of_neg (by simpa using hne), List.find?_cons_of_neg (by simpa using hk)]

/-- Let stand for `k` what `f` makes of what stood for it, if anything did. -/
def upsert (m : SortedMap κ ν) (k : κ) (f : Option ν → ν) : SortedMap κ ν :=
  ⟨upsertSorted k f m.entries, pairwise_upsertSorted m.sorted⟩

/-- Only what stands for the one key is changed. -/
theorem get?_upsert :
    (m.upsert k f).get? k' = if k' = k then some (f (m.get? k)) else m.get? k' :=
  find?_upsertSorted m.sorted

/-- Let `v` stand for `k`, whatever stood for it before. -/
def put (m : SortedMap κ ν) (k : κ) (v : ν) : SortedMap κ ν := m.upsert k fun _ => v

omit [DecidableEq κ] [TransOrd κ] [LawfulEqOrd κ] in
/-- What comes behind all others is put at the end. -/
theorem upsertSorted_eq_append (h : ∀ e ∈ l, compare k e.1 = .gt) :
    upsertSorted k f l = l ++ [(k, f none)] := by
  induction l with
  | nil => rfl
  | cons d l ih =>
    rw [upsertSorted, h d List.mem_cons_self, ih fun e he => h e (List.mem_cons_of_mem _ he)]
    rfl

omit [DecidableEq κ] in
/-- If entries are put in ascending order, each comes behind those before it. -/
theorem entries_foldl_put (h : (m.entries ++ l).Pairwise fun a b => compare a.1 b.1 = .lt) :
    (l.foldl (fun m e => m.put e.1 e.2) m).entries = m.entries ++ l := by
  induction l generalizing m with
  | nil => exact (List.append_nil _).symm
  | cons e l ih =>
    have hput : (m.put e.1 e.2).entries = m.entries ++ [e] := upsertSorted_eq_append fun d hd =>
      OrientedCmp.gt_iff_lt.mpr ((List.pairwise_append.mp h).2.2 d hd e List.mem_cons_self)
    rw [List.append_cons, ← hput] at h ⊢
    exact ih h

end SortedMap

end GrammarAutomata
