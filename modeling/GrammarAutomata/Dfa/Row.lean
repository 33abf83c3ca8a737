import GrammarAutomata.SortedMap

/-!
# Rows

The transitions of one deterministic state: for some symbols, the state that
reading the symbol leads to, listed by symbol.
-/

namespace GrammarAutomata

/-- Where each symbol leads, in ascending order of the symbols. -/
abbrev Row := SortedMap Char Nat

namespace Row

/-- The states that some symbol leads to. -/
def targets (r : Row) : List Nat := r.entries.map (·.2)

/-! ## Filling a row -/

/-- The row with the given entries. Of two for the same symbol the later one
counts. -/
def ofList (l : List (Char × Nat)) : Row := l.foldl (fun r e => r.put e.1 e.2) .empty

/-- The row with an entry for each symbol of an alphabet. -/
def tabulate (alphabet : SortedSet Char) (f : Char → Nat) : Row where
  entries := alphabet.toList.map fun c => (c, f c)
  sorted := List.pairwise_map.mpr alphabet.sorted

theorem tabulate_congr {alphabet : SortedSet Char} {f f' : Char → Nat}
    (h : ∀ c ∈ alphabet, f c = f' c) : tabulate alphabet f = tabulate alphabet f' := by
  unfold tabulate
  congr 1
  exact List.map_congr_left fun c hc => by rw [h c hc]

theorem get?_tabulate {alphabet : SortedSet Char} {f : Char → Nat} {c : Char} :
    (tabulate alphabet f).get? c = if c ∈ alphabet then some (f c) else none := by
  simp only [SortedMap.get?, tabulate, List.find?_map, Function.comp_def]
  split
  · rename_i h
    cases hfind : alphabet.toList.find? fun d => decide (d = c) with
    | none => exact absurd (List.find?_eq_none.mp hfind c h) (by simp)
    | some d =>
      have := List.find?_some hfind
      simp only [decide_eq_true_eq] at this
      simp [this]
  · rename_i h
    have : alphabet.toList.find? (fun d => decide (d = c)) = none :=
      List.find?_eq_none.mpr fun d hd heq => h (of_decide_eq_true heq ▸ hd)
    simp [this]

/-- Filled symbol by symbol, a row is the same. -/
theorem ofList_tabulate (alphabet : SortedSet Char) (f : Char → Nat) :
    ofList (alphabet.toList.map fun c => (c, f c)) = tabulate alphabet f :=
  SortedMap.eq_of_entries_eq <|
    SortedMap.entries_foldl_put (m := .empty) (tabulate alphabet f).sorted

end Row

end GrammarAutomata
