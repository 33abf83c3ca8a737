import GrammarAutomata.Dot.Quoted

/-!
# Quoting in two passes, and reading back

A name can be quoted by replacing characters twice: every backslash by two of them, and then
every quote by a backslash and a quote. The second pass goes over what the first one has
written, but it finds there the quotes of the name and no others, and it adds no backslash that
could be doubled. So in the end every character stands there as if it had been escaped alone
(`Dot.replaceAll_replaceAll_eq_escaped`).

A reader that looks for the closing quote has to skip whatever follows a backslash
(`Dot.untilQuote`), and it gets the name when it takes away the backslashes that made it skip
(`Dot.unescape`). Each escaped character is passed over as a whole, however many backslashes
or quotes stand side by side, so the reader stops where the name ends and nowhere before
(`Dot.untilQuote_escaped`).
-/

namespace GrammarAutomata.Dot

/-! ## Writing -/

/-- Put `new` in the place of every `old`. -/
def replaceAll (old : Char) (new text : List Char) : List Char :=
  text.flatMap fun c => if c = old then new else [c]

/-- Both passes together escape each character. -/
theorem replaceAll_replaceAll_eq_escaped (text : List Char) :
    replaceAll '"' ['\\', '"'] (replaceAll '\\' ['\\', '\\'] text) = text.flatMap escape := by
  rw [replaceAll, replaceAll, List.flatMap_assoc]
  refine congrArg (List.flatMap · text) (funext fun c => ?_)
  by_cases hback : c = '\\'
  · subst hback
    rfl
  · by_cases hquote : c = '"'
    · subst hquote
      rfl
    · simp [escape, hback, hquote]

/-! ## Reading -/

/-- What stands before the first quote that is not escaped, as it stands there, and what
follows that quote. -/
def untilQuote : List Char → Option (List Char × List Char)
  | [] => none
  | '"' :: rest => some ([], rest)
  | '\\' :: c :: rest => (untilQuote rest).map fun x => ('\\' :: c :: x.1, x.2)
  | c :: rest => (untilQuote rest).map fun x => (c :: x.1, x.2)

/-- What stands in quotes at the beginning of a text, as it stands there, and what follows. -/
def readQuoted : List Char → Option (List Char × List Char)
  | '"' :: text => untilQuote text
  | _ => none

/-- Each backslash gives way to the character that follows it. -/
def unescape : List Char → List Char
  | [] => []
  | '\\' :: c :: text => c :: unescape text
  | c :: text => c :: unescape text

/-- An escaped character is passed over as a whole. -/
theorem untilQuote_escape (c : Char) (text : List Char) :
    untilQuote (escape c ++ text) = (untilQuote text).map fun x => (escape c ++ x.1, x.2) := by
  unfold escape
  split
  · rfl
  · rename_i h
    rw [not_or] at h
    rw [List.singleton_append, untilQuote.eq_4 c text h.2 fun _ _ hc _ => h.1 hc]
    rfl

/-- The reader comes to the closing quote and stops there. -/
theorem untilQuote_escaped (name rest : List Char) :
    untilQuote (name.flatMap escape ++ '"' :: rest) = some (name.flatMap escape, rest) := by
  induction name with
  | nil => rfl
  | cons c name ih => rw [List.flatMap_cons, List.append_assoc, untilQuote_escape, ih]; rfl

/-- To scan is to find the closing quote and to undo the escapes before it. -/
theorem scan_eq_map_untilQuote (text : List Char) :
    scan text = (untilQuote text).map fun x => (unescape x.1, x.2) := by
  fun_induction untilQuote text with
  | case1 => rfl
  | case2 rest => rfl
  | case3 c rest ih =>
    rw [scan, ih, Option.map_map, Option.map_map]
    rfl
  | case4 c rest hquote hback ih =>
    rw [scan.eq_4 c rest hquote hback, ih, Option.map_map, Option.map_map]
    cases hrest : untilQuote rest with
    | none => rfl
    | some x =>
      -- behind a backslash at the end of the text there is no closing quote
      have hlast : ∀ d tail, c = '\\' → x.1 = d :: tail → False := by
        intro d tail hc _
        cases rest with
        | nil => cases hrest
        | cons e rest => exact hback e rest hc rfl
      rw [Option.map_some, Option.map_some, Function.comp_apply, Function.comp_apply,
        unescape.eq_3 c x.1 hlast]

theorem unescape_escaped (name : List Char) : unescape (name.flatMap escape) = name := by
  have h := scan_escaped name []
  rw [scan_eq_map_untilQuote, untilQuote_escaped] at h
  exact (Prod.mk.inj (Option.some.inj h)).1

/-- **A quoted name tells where it ends and what it says.** It is written in two passes, and
whatever text follows it, a reader that begins at its opening quote stops at its closing
quote, leaves the text that follows, and gets the name when it undoes the escapes. So quoted
names with something behind them are the same only if the names are, and what is behind them is;
different names are never quoted alike. -/
theorem quoted_names_are_read_back (name rest : String) :
    quote name = "\"" ++ String.ofList (replaceAll '"' ['\\', '"']
      (replaceAll '\\' ['\\', '\\'] name.toList)) ++ "\"" ∧
    (∃ raw, (quote name).toList = '"' :: (raw ++ ['"']) ∧
      readQuoted (quote name ++ rest).toList = some (raw, rest.toList) ∧
      unescape raw = name.toList) ∧
    (∀ name' rest', quote name ++ rest = quote name' ++ rest' ↔ name = name' ∧ rest = rest') ∧
    ∀ name', quote name = quote name' ↔ name = name' := by
  refine ⟨?_, ?_, ?_, ?_⟩
  · rw [replaceAll_replaceAll_eq_escaped]
    rfl
  · refine ⟨name.toList.flatMap escape, toList_quote name, ?_, unescape_escaped name.toList⟩
    rw [String.toList_append, toList_quote, List.cons_append, List.append_assoc,
      List.singleton_append]
    exact untilQuote_escaped name.toList rest.toList
  · intro name' rest'
    refine ⟨fun h => ?_, ?_⟩
    · have htexts := congrArg String.toList h
      rw [String.toList_append, String.toList_append] at htexts
      obtain ⟨hname, hrest⟩ := quote_append_inj htexts
      exact ⟨hname, String.toList_inj.mp hrest⟩
    · rintro ⟨rfl, rfl⟩
      rfl
  · intro name'
    refine ⟨fun h => ?_, congrArg quote⟩
    have htexts : (quote name).toList ++ [] = (quote name').toList ++ [] := by rw [h]
    exact (quote_append_inj htexts).1

end GrammarAutomata.Dot
