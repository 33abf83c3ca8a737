/-!
# Quoted names

Between quotes a backslash and a quote stand behind a backslash, and every other
character stands for itself. So a reader that takes whatever follows a backslash
as it is finds the end of the name and gets the name back (`scan_escaped`).
-/

namespace GrammarAutomata.Dot

/-- A character as it stands between quotes. -/
def escape (c : Char) : List Char := if c = '\\' ∨ c = '"' then ['\\', c] else [c]

/-- A name in quotes. -/
def quote (name : String) : String :=
  "\"" ++ String.ofList (name.toList.flatMap escape) ++ "\""

/-- What stands before the first quote that no backslash precedes, with the
escapes undone, and what follows that quote. -/
def scan : List Char → Option (List Char × List Char)
  | [] => none
  | '"' :: rest => some ([], rest)
  | '\\' :: c :: rest => (scan rest).map fun x => (c :: x.1, x.2)
  | c :: rest => (scan rest).map fun x => (c :: x.1, x.2)

theorem scan_escape (c : Char) (rest : List Char) :
    scan (escape c ++ rest) = (scan rest).map fun x => (c :: x.1, x.2) := by
  unfold escape
  split
  · rfl
  · rename_i h
    rw [not_or] at h
    rw [List.singleton_append, scan.eq_4]
    · exact h.2
    · exact fun d tail hc _ => h.1 hc

/-- Scanning undoes escaping and stops at the closing quote. -/
theorem scan_escaped (name rest : List Char) :
    scan (name.flatMap escape ++ '"' :: rest) = some (name, rest) := by
  induction name with
  | nil => rfl
  | cons c name ih => rw [List.flatMap_cons, List.append_assoc, scan_escape, ih]; rfl

theorem toList_quote (name : String) :
    (quote name).toList = '"' :: (name.toList.flatMap escape ++ ['"']) := by
  simp [quote]

/-- The end of a quoted name can be found, and the name can be read off. -/
theorem quote_append_inj {name name' : String} {rest rest' : List Char}
    (h : (quote name).toList ++ rest = (quote name').toList ++ rest') :
    name = name' ∧ rest = rest' := by
  rw [toList_quote, toList_quote, List.cons_append, List.cons_append, List.append_assoc,
    List.append_assoc] at h
  have hscan := congrArg scan (List.cons.inj h).2
  rw [List.singleton_append, List.singleton_append, scan_escaped, scan_escaped] at hscan
  obtain ⟨hname, hrest⟩ := Prod.mk.inj (Option.some.inj hscan)
  exact ⟨String.toList_inj.mp hname, hrest⟩

end GrammarAutomata.Dot
