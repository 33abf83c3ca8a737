import GrammarAutomata.Dfa.Drawing
import GrammarAutomata.Nfa.Drawing
import GrammarAutomata.Proofs.Compilation
import GrammarAutomata.Proofs.Determinization
import GrammarAutomata.Proofs.Items

/-!
# Labels of edges

The names of states are escaped where they stand between quotes, so they can be read off
a drawing (`Dot.scan_escaped`). The labels of an edge stand between quotes too, but as
they are. What a reader gets is therefore the labels if none of them is a quote or a
backslash, and never otherwise (`Dot.Drawing.readable_iff`): a quote ends the label too
early, and a backslash is lost, so that what is read is shorter than what was written.

Which labels there are is the grammar's choice. The edges of its automaton have the
terminals that occur in bodies, and those of the deterministic automaton have all
terminals, since every row is complete (`Nfa.edges_readable_iff`).
-/

namespace GrammarAutomata

namespace Dot

variable {text rest s x r : List Char} {c : Char} {labels : List Label} {l : Label}

/-! ## Reading what is not escaped -/

/-- Between quotes the character stands for itself. -/
def Plain (c : Char) : Prop := c ≠ '\\' ∧ c ≠ '"'

/-- What is read and what is left are shorter than the text: there was a quote. -/
theorem length_lt_of_scan (h : scan s = some (x, r)) : x.length + r.length < s.length := by
  fun_induction scan s generalizing x with
  | case1 => cases h
  | case2 rest =>
    cases h
    simp
  | case3 c rest ih =>
    obtain ⟨y, hy, heq⟩ := Option.map_eq_some_iff.mp h
    cases heq
    have := ih hy
    simp only [List.length_cons]
    omega
  | case4 c rest _ _ ih =>
    obtain ⟨y, hy, heq⟩ := Option.map_eq_some_iff.mp h
    cases heq
    have := ih hy
    simp only [List.length_cons]
    omega

/-- A backslash is not read, and no character behind it makes up for that. -/
theorem scan_backslash_ne (text rest : List Char) :
    scan ('\\' :: (text ++ '"' :: rest)) ≠ some ('\\' :: text, rest) := by
  intro h
  obtain ⟨c, tail, htail⟩ := List.exists_cons_of_ne_nil
    (List.append_ne_nil_of_right_ne_nil text (List.cons_ne_nil '"' rest))
  rw [htail, scan] at h
  obtain ⟨y, hy, heq⟩ := Option.map_eq_some_iff.mp h
  cases heq
  have hlt := length_lt_of_scan hy
  have hlength := congrArg List.length htail
  simp only [List.length_append, List.length_cons] at hlength
  omega

/-- What is not escaped is read as it is if and only if it did not have to be. -/
theorem scan_eq_self_iff :
    scan (text ++ '"' :: rest) = some (text, rest) ↔ ∀ c ∈ text, Plain c := by
  induction text with
  | nil => exact iff_of_true rfl nofun
  | cons c text ih =>
    rw [List.cons_append, List.forall_mem_cons, ← ih]
    by_cases hback : c = '\\'
    · subst hback
      exact iff_of_false (scan_backslash_ne text rest) fun h => h.1.1 rfl
    by_cases hquote : c = '"'
    · subst hquote
      exact iff_of_false nofun fun h => h.1.2 rfl
    · rw [and_iff_right ⟨hback, hquote⟩, scan.eq_4 _ _ hquote fun _ _ h _ => hback h,
        Option.map_eq_some_iff]
      refine ⟨?_, fun h => ⟨_, h, rfl⟩⟩
      rintro ⟨y, hy, heq⟩
      cases heq
      exact hy

/-! ## Joined labels -/

/-- In the joined labels of an edge a character is a label or it is one of the characters that
join and denote labels. -/
theorem mem_labelText_iff (hcomma : c ≠ ',') (hepsilon : c ≠ 'ε') :
    c ∈ (labelText labels).toList ↔ .symbol c ∈ labels := by
  rw [labelText, String.toList_intercalate, List.map_map]
  induction labels with
  | nil => simp
  | cons l labels ih =>
    have hlabel : c ∈ l.text.toList ↔ .symbol c = l := by
      cases l with
      | epsilon => exact iff_of_false (fun h => hepsilon (List.mem_singleton.mp h)) nofun
      | symbol d => simp [Label.text]
    cases labels with
    | nil => simp [hlabel]
    | cons m labels =>
      have hjoin : ",".toList.intercalate ((l :: m :: labels).map (String.toList ∘ Label.text)) =
          l.text.toList ++ (",".toList ++
            ",".toList.intercalate ((m :: labels).map (String.toList ∘ Label.text))) := by
        simp
      have hseparator : c ∉ ",".toList := fun h => hcomma (List.mem_singleton.mp h)
      rw [hjoin, List.mem_append, List.mem_append, or_iff_right hseparator, ih, hlabel]
      exact List.mem_cons.symm

/-- Only two characters are not plain. -/
theorem forall_plain_iff {P : Char → Prop} : (∀ c, P c → Plain c) ↔ ¬ P '\\' ∧ ¬ P '"' := by
  refine ⟨fun h => ⟨fun hP => (h _ hP).1 rfl, fun hP => (h _ hP).2 rfl⟩, ?_⟩
  rintro ⟨hback, hquote⟩ c hP
  exact ⟨fun hc => hback (hc ▸ hP), fun hc => hquote (hc ▸ hP)⟩

theorem plain_labelText_iff :
    (∀ c ∈ (labelText labels).toList, Plain c) ↔ ∀ c, .symbol c ∈ labels → Plain c := by
  rw [forall_plain_iff, forall_plain_iff, mem_labelText_iff (by decide) (by decide),
    mem_labelText_iff (by decide) (by decide)]

namespace Drawing

variable {g : Drawing} {e : Edge g.names.size}

/-- The label of an edge can be read off the line that draws the edge: behind the quote that
opens the label stands a text that ends, as a reader finds it, at the quote that only the
end of the line follows, and it says what the labels of the edge are, joined by commas. -/
def Readable (g : Drawing) (e : Edge g.names.size) : Prop :=
  ∃ rest : String,
    g.edgeLine e =
      "    " ++ g.node e.source ++ " -> " ++ g.node e.target ++ " [label = \"" ++ rest ∧
    scan rest.toList = some ((labelText e.labels).toList, [']', ';'])

/-- The label of an edge can be read off its line if and only if no label of the edge is a quote
or a backslash. -/
theorem readable_iff : g.Readable e ↔ ∀ c, .symbol c ∈ e.labels → Plain c := by
  have hline : g.edgeLine e = "    " ++ g.node e.source ++ " -> " ++ g.node e.target ++
      " [label = \"" ++ (labelText e.labels ++ "\"];") := String.append_assoc ..
  have hscan : g.Readable e ↔ scan (labelText e.labels ++ "\"];").toList =
      some ((labelText e.labels).toList, [']', ';']) := by
    refine ⟨?_, fun h => ⟨_, hline, h⟩⟩
    rintro ⟨rest, hrest, h⟩
    rw [← (String.append_right_inj _).mp (hrest.symm.trans hline)]
    exact h
  rw [hscan, String.toList_append, ← plain_labelText_iff]
  exact scan_eq_self_iff

theorem readable_edges_iff : (∀ e ∈ g.edges, g.Readable e) ↔
    ∀ c, (∃ e ∈ g.edges, .symbol c ∈ e.labels) → Plain c := by
  simp only [readable_iff]
  exact ⟨fun h c ⟨e, he, hc⟩ => h e he c hc, fun h e he c hc => h c ⟨e, he, hc⟩⟩

end Drawing

/-! ## The labels of all edges -/

variable {n p q : Nat} {steps : Nat → List (Label × Nat)}

/-- The edges have the labels of the steps between nodes. -/
theorem exists_label_edgesOf_iff : (∃ e ∈ edgesOf n steps, l ∈ e.labels) ↔
    ∃ p q, p < n ∧ q < n ∧ (l, q) ∈ steps p := by
  simp only [mem_edgesOf]
  refine ⟨?_, ?_⟩
  · rintro ⟨e, ⟨-, hlabels⟩, hl⟩
    rw [← hlabels, mem_labelsTo] at hl
    exact ⟨e.source, e.target, e.source.2, e.target.2, hl⟩
  · rintro ⟨p, q, hp, hq, hl⟩
    exact ⟨⟨⟨p, hp⟩, ⟨q, hq⟩, _⟩, ⟨⟨l, hl⟩, rfl⟩, mem_labelsTo.mpr hl⟩

end Dot

variable {g : Grammar} {options : Options} {units : UnitProductions} {direction : Direction}
  {arcs : List Arc} {c : Char} {n m : Nfa}

/-! ## What the automaton of a grammar reads -/

/-- In the arcs of a grammar there are the terminals that occur in bodies. -/
theorem Grammar.exists_mem_word_iff (h : g.arcs units direction = .ok arcs) :
    (∃ arc ∈ arcs, c ∈ arc.word) ↔ c ∈ g.terminals ∧ ∃ p ∈ g.productions, c ∈ p.body := by
  refine ⟨?_, ?_⟩
  · rintro ⟨arc, harc, hc⟩
    obtain ⟨p, hp, heq⟩ := exists_production_of_mem h harc
    exact ⟨allTerminal_word_of_arc_read hp heq c hc, p, hp, mem_body_of_mem_word heq hc⟩
  · rintro ⟨hterminal, p, hp, hc⟩
    obtain ⟨arc, harc, heq⟩ := exists_arc_of_mem h hp
    have hmem : c ∈ arc.word ++ arc.target.toList := by
      rw [← mem_body_read_iff, ← production_of_arc heq] at hc
      exact hc
    refine ⟨arc, harc, (List.mem_append.mp hmem).resolve_right fun htarget => ?_⟩
    exact g.wellFormed.not_both c hterminal
      ((fits_of_arc_read hp heq).target_mem c (Option.mem_toList.mp htarget))

namespace Nfa

/-- Some transition reads the symbol. -/
def Reads (n : Nfa) (c : Char) : Prop := ∃ p q, ⟨p, .symbol c, q⟩ ∈ n.transitions

theorem reads_reverse_iff : n.reverse.Reads c ↔ n.Reads c := by
  refine ⟨?_, ?_⟩
  · rintro ⟨p, q, ht⟩
    rcases mem_transitions_reverse.mp ht with ⟨_, hl, _⟩ | ht
    · cases hl
    · exact ⟨q, p, ht⟩
  · rintro ⟨p, q, ht⟩
    exact ⟨q, p, mem_transitions_reverse.mpr (.inr ht)⟩

theorem Turned.reads_iff (h : n.Turned m) : m.Reads c ↔ n.Reads c := by
  induction h with
  | refl => exact Iff.rfl
  | reverse _ ih => exact reads_reverse_iff.trans ih

theorem reads_ofArcs_iff : (ofArcs g arcs).Reads c ↔ ∃ arc ∈ arcs, c ∈ arc.word := by
  simp only [Reads, mem_transitions_ofArcs_iff]
  refine ⟨?_, ?_⟩
  · rintro ⟨_, _, arc, first, i, l, hlane, hl, heq⟩
    cases heq
    exact ⟨arc, mem_of_mem_lanes hlane, Word.symbol_mem_labels_iff.mp (List.mem_of_getElem? hl)⟩
  · rintro ⟨arc, harc, hc⟩
    obtain ⟨first, hlane⟩ := exists_lane_of_mem (g.acceptState + 1) harc
    obtain ⟨i, hi⟩ := List.mem_iff_getElem?.mp (Word.symbol_mem_labels_iff.mpr hc)
    exact ⟨_, _, arc, first, i, _, hlane, hi, rfl⟩

/-- The automaton of a grammar reads the terminals that occur in bodies. -/
theorem reads_ofGrammar_iff (h : ofGrammar g options = .ok n) :
    n.Reads c ↔ c ∈ g.terminals ∧ ∃ p ∈ g.productions, c ∈ p.body := by
  rcases exists_arcs_of_ofGrammar h with ⟨arcs, harcs, rfl⟩ | ⟨arcs, harcs, rfl⟩
  · exact reads_ofArcs_iff.trans (Grammar.exists_mem_word_iff harcs)
  · exact (reads_reverse_iff.trans reads_ofArcs_iff).trans (Grammar.exists_mem_word_iff harcs)

/-- The edges have the symbols that are read. -/
theorem exists_edge_iff : (∃ e ∈ n.drawing.edges, .symbol c ∈ e.labels) ↔ n.Reads c := by
  have hsize : n.drawing.names.size = n.size := size_names
  refine Dot.exists_label_edgesOf_iff.trans ?_
  simp only [mem_steps, hsize]
  refine ⟨fun ⟨p, q, _, _, ht⟩ => ⟨p, q, ht⟩, fun ⟨p, q, ht⟩ => ⟨p, q, source_lt ht, ?_, ht⟩⟩
  exact lt_size_of_mem_transitions ht

end Nfa

namespace Dfa

/-- In a complete row every symbol of the alphabet leads somewhere. -/
theorem exists_edge_ofNfa_iff :
    (∃ e ∈ (ofNfa n).drawing.edges, .symbol c ∈ e.labels) ↔ c ∈ n.alphabet := by
  have hsize : (ofNfa n).drawing.names.size = (ofNfa n).size := Array.size_map
  refine Dot.exists_label_edgesOf_iff.trans ?_
  simp only [mem_steps]
  refine ⟨?_, fun hc => ?_⟩
  · rintro ⟨p, q, _, _, s, _, hs, heq, hq⟩
    cases heq
    obtain ⟨set, _, rfl⟩ := exists_subset_of_state? hs
    rw [get?_row_ofNfa] at hq
    exact (Option.ite_none_right_eq_some.mp hq).1
  · have hzero := state?_ofNfa (n := n) Nfa.get?_subsets_zero
    have hnext := state?_ofNfa (Nfa.get?_placeOf_step Nfa.get?_subsets_zero hc)
    refine ⟨0, _, ?_, ?_, _, c, hzero, rfl, get?_row_ofNfa.trans (if_pos hc)⟩
    · exact hsize ▸ lt_size_of_state? hzero
    · exact hsize ▸ lt_size_of_state? hnext

end Dfa

namespace Nfa

/-- **When labels can be read off a drawing.** In the drawing of the automaton of a grammar,
however often it has been reversed, the labels of all edges can be read off their lines if
and only if no quote and no backslash is a terminal in the body of a production; in that
of the deterministic automaton, if and only if neither is a terminal at all. -/
theorem edges_readable_iff (g : Grammar) (options : Options) (n₀ n : Nfa)
    (h : ofGrammar g options = .ok n₀) (hn : n₀.Turned n) :
    ((∀ e ∈ n.drawing.edges, n.drawing.Readable e) ↔
      ∀ p ∈ g.productions, ∀ c ∈ p.body, c ∈ g.terminals → Dot.Plain c) ∧
    ((∀ e ∈ (Dfa.ofNfa n).drawing.edges, (Dfa.ofNfa n).drawing.Readable e) ↔
      ∀ c ∈ g.terminals, Dot.Plain c) := by
  refine ⟨?_, ?_⟩
  · simp only [Dot.Drawing.readable_edges_iff, exists_edge_iff, hn.reads_iff, reads_ofGrammar_iff h]
    refine ⟨fun hall p hp c hc hterminal => hall c ⟨hterminal, p, hp, hc⟩, ?_⟩
    rintro hall c ⟨hterminal, p, hp, hc⟩
    exact hall p hp c hc hterminal
  · rw [Dot.Drawing.readable_edges_iff]
    simp only [Dfa.exists_edge_ofNfa_iff, hn.alphabet_eq, alphabet_ofGrammar h]

/-- A quote is a terminal of this grammar, and the only production goes without it. -/
def unusedQuote : Grammar where
  nonterminals := {'S'}
  terminals := {'"', 'a'}
  start := 'S'
  productions := [⟨'S', ['a']⟩]
  wellFormed := Draft.defect?_eq_none_iff.mp (by decide)

/-- So the labels in the drawing of its automaton, reversed, can be read, but not all of those in
the drawing of the deterministic automaton. -/
theorem edges_readable_iff_unusedQuote :
    ∃ n₀, ofGrammar unusedQuote {} = .ok n₀ ∧ n₀.Turned n₀.reverse ∧
      (∀ e ∈ n₀.reverse.drawing.edges, n₀.reverse.drawing.Readable e) ∧
      ¬ ∀ e ∈ (Dfa.ofNfa n₀.reverse).drawing.edges, (Dfa.ofNfa n₀.reverse).drawing.Readable e := by
  obtain ⟨n₀, h⟩ := exists_ok_of_isOk (x := ofGrammar unusedQuote {}) (by decide +kernel)
  have hturned : n₀.Turned n₀.reverse := .reverse .refl
  obtain ⟨hnfa, hdfa⟩ := edges_readable_iff unusedQuote {} n₀ n₀.reverse h hturned
  refine ⟨n₀, h, hturned, hnfa.mpr fun p hp c hc _ => ?_, fun hall => ?_⟩
  · obtain rfl : p = ⟨'S', ['a']⟩ := List.mem_singleton.mp hp
    obtain rfl : c = 'a' := List.mem_singleton.mp hc
    exact ⟨by decide, by decide⟩
  · exact (hdfa.mp hall '"' (by decide)).2 rfl

/-- A grammar that generates one word, which is a quote. -/
def quoteAlone : Grammar where
  nonterminals := {'S'}
  terminals := {'"'}
  start := 'S'
  productions := [⟨'S', ['"']⟩]
  wellFormed := Draft.defect?_eq_none_iff.mp (by decide)

/-- Not all labels can be read off drawings: in that of the automaton of this grammar there is
one that cannot. -/
theorem edges_not_readable :
    ¬ ∀ (g : Grammar) (options : Options) (n₀ n : Nfa), ofGrammar g options = .ok n₀ →
      n₀.Turned n → (∀ e ∈ n.drawing.edges, n.drawing.Readable e) ∧
        ∀ e ∈ (Dfa.ofNfa n).drawing.edges, (Dfa.ofNfa n).drawing.Readable e := by
  intro hall
  obtain ⟨n₀, h⟩ := exists_ok_of_isOk (x := ofGrammar quoteAlone {}) (by decide +kernel)
  have hreads : n₀.Reads '"' :=
    (reads_ofGrammar_iff h).mpr ⟨by decide, _, List.mem_cons_self, List.mem_cons_self⟩
  have hplain := Dot.Drawing.readable_edges_iff.mp (hall _ _ _ _ h .refl).1
  exact (hplain '"' (exists_edge_iff.mpr hreads)).2 rfl

end Nfa

end GrammarAutomata
