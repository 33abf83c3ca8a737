import GrammarAutomata.Dot.Drawing

/-!
# Texts of labels

A label is drawn as one character, its glyph. In the text of several labels glyphs and commas
take turns, so the glyphs can be read off the text, and where it ends can be seen, even if the
comma or the quote is a label itself (`Dot.labelText_append_inj`).

Glyphs do not always say which labels they belong to: the step that reads nothing and the one
that reads the symbol `ε` have the same. In a set the former comes first. So two sets of labels
have the same text only if they are equal or if one begins with nothing, the other with `ε`, and
all that follows is the same (`Dot.labelText_eq_labelText_iff`). Sets of symbols have different
texts (`Dot.labelText_symbols_inj`).
-/

namespace GrammarAutomata

/-! ## Glyphs -/

namespace Label

variable {l m : Label} {labels : List Label}

/-- The character that shows a label. -/
def glyph : Label → Char
  | .epsilon => 'ε'
  | .symbol c => c

theorem toList_text (l : Label) : l.text.toList = [l.glyph] := by
  cases l with
  | epsilon => rfl
  | symbol c => simp [text, glyph]

theorem symbol_glyph (h : l ≠ .epsilon) : .symbol l.glyph = l := by
  cases l with
  | epsilon => exact absurd rfl h
  | symbol c => rfl

/-- Symbols are known by their glyphs. -/
theorem map_symbol_map_glyph (h : ∀ l ∈ labels, l ≠ .epsilon) :
    (labels.map glyph).map .symbol = labels := by
  rw [List.map_map]
  exact (List.map_congr_left fun l hl => symbol_glyph (h l hl)).trans (List.map_id _)

/-- Only symbols come behind a label. -/
theorem Before.ne_epsilon (h : l.Before m) : m ≠ .epsilon := by
  rintro rfl
  cases l <;> exact h

/-- A glyph that two labels share is that of nothing. -/
theorem glyph_eq_glyph_iff : l.glyph = m.glyph ↔
    l = m ∨ (l = .epsilon ∧ m = .symbol 'ε') ∨ (m = .epsilon ∧ l = .symbol 'ε') := by
  cases l <;> cases m <;> simp [glyph, eq_comm]

end Label

namespace Dot

/-! ## Telling texts apart -/

section

variable {α : Type} {f : α → List Char} {rest rest' : List Char}

/-- All but the first have a separator before them. -/
theorem intercalate_cons (sep x : List Char) (xs : List (List Char)) :
    sep.intercalate (x :: xs) = x ++ xs.flatMap (sep ++ ·) := by
  induction xs generalizing x with
  | nil => simp
  | cons y xs ih => rw [List.intercalate_cons_cons, ih, List.flatMap_cons, List.append_assoc,
      List.append_assoc]

/-- If the end of each text can be seen, so can that of several texts in a row, provided that
none begins with what ends the row. -/
theorem flatMap_append_inj {xs ys : List α} (stop : List Char)
    (hstop : ∀ x rest rest', f x ++ rest ≠ stop ++ rest')
    (hf : ∀ x ∈ xs, ∀ y ∈ ys, ∀ rest rest', f x ++ rest = f y ++ rest' → x = y ∧ rest = rest')
    (h : xs.flatMap f ++ (stop ++ rest) = ys.flatMap f ++ (stop ++ rest')) :
    xs = ys ∧ rest = rest' := by
  induction xs generalizing ys with
  | nil =>
    cases ys with
    | nil => exact ⟨rfl, List.append_cancel_left h⟩
    | cons y ys =>
      rw [List.flatMap_cons, List.append_assoc] at h
      exact absurd h.symm (hstop y _ _)
  | cons x xs ih =>
    cases ys with
    | nil =>
      rw [List.flatMap_cons, List.append_assoc] at h
      exact absurd h (hstop x _ _)
    | cons y ys =>
      rw [List.flatMap_cons, List.flatMap_cons, List.append_assoc, List.append_assoc] at h
      obtain ⟨rfl, htail⟩ := hf x List.mem_cons_self y List.mem_cons_self _ _ h
      obtain ⟨rfl, hrest⟩ := ih (fun x hx y hy => hf x (List.mem_cons_of_mem _ hx) y
        (List.mem_cons_of_mem _ hy)) htail
      exact ⟨rfl, hrest⟩

end

/-! ## Joined labels -/

variable {l : Label} {labels labels' : List Label} {rest rest' : List Char}

theorem toList_labelText_cons : (labelText (l :: labels)).toList =
    l.glyph :: (labels.map Label.glyph).flatMap fun c => [',', c] := by
  rw [labelText, String.toList_intercalate, List.map_map, List.map_cons, intercalate_cons,
    Function.comp_apply, Label.toList_text, List.flatMap_map, List.flatMap_map]
  simp only [Function.comp_apply, Label.toList_text]
  rfl

theorem labelText_eq_of_map_glyph_eq (h : labels.map Label.glyph = labels'.map Label.glyph) :
    labelText labels = labelText labels' := by
  refine String.toList_inj.mp ?_
  cases labels with
  | nil =>
    obtain rfl : labels' = [] := List.map_eq_nil_iff.mp h.symm
    rfl
  | cons l labels =>
    cases labels' with
    | nil => cases h
    | cons m labels' =>
      obtain ⟨hhead, htail⟩ := List.cons.inj h
      rw [toList_labelText_cons, toList_labelText_cons, hhead, htail]

/-- The quote behind some labels can be found, even if it is one of them. -/
theorem labelText_append_inj (hne : labels ≠ []) (hne' : labels' ≠ [])
    (h : (labelText labels).toList ++ '"' :: rest = (labelText labels').toList ++ '"' :: rest') :
    labels.map Label.glyph = labels'.map Label.glyph ∧ rest = rest' := by
  obtain ⟨l, labels, rfl⟩ := List.exists_cons_of_ne_nil hne
  obtain ⟨m, labels', rfl⟩ := List.exists_cons_of_ne_nil hne'
  rw [toList_labelText_cons, toList_labelText_cons] at h
  obtain ⟨hhead, h⟩ := List.cons.inj h
  -- a comma goes on, a quote ends the labels
  obtain ⟨htail, hrest⟩ := flatMap_append_inj ['"']
    (fun _ _ _ h => absurd (List.cons.inj h).1 (by decide))
    (fun _ _ _ _ _ _ h => List.cons.inj (List.cons.inj h).2) h
  rw [List.map_cons, List.map_cons, hhead, htail]
  exact ⟨rfl, hrest⟩

/-- The text of some labels shows their glyphs and nothing else. -/
theorem labelText_eq_iff :
    labelText labels = labelText labels' ↔ labels.map Label.glyph = labels'.map Label.glyph := by
  refine ⟨fun h => ?_, labelText_eq_of_map_glyph_eq⟩
  have hlist := congrArg String.toList h
  cases labels with
  | nil =>
    cases labels' with
    | nil => rfl
    | cons m labels' =>
      rw [toList_labelText_cons] at hlist
      cases hlist
  | cons l labels =>
    cases labels' with
    | nil =>
      rw [toList_labelText_cons] at hlist
      cases hlist
    | cons m labels' =>
      exact (labelText_append_inj (List.cons_ne_nil l labels) (List.cons_ne_nil m labels')
        (congrArg (· ++ ['"']) hlist)).1

/-! ## Sets of labels -/

variable {s t : SortedSet Label}

/-- Where `s` has the step that reads nothing, `t` has the symbol `ε`. In both it comes first, and
what follows is the same. -/
def Swapped (s t : SortedSet Label) : Prop :=
  ∃ labels, s.toList = .epsilon :: labels ∧ t.toList = .symbol 'ε' :: labels

/-- The sets cannot be told apart by their text. -/
def Alike (s t : SortedSet Label) : Prop := s = t ∨ Swapped s t ∨ Swapped t s

theorem Swapped.epsilon_mem (h : Swapped s t) : .epsilon ∈ s := by
  obtain ⟨labels, hs, _⟩ := h
  rw [← SortedSet.mem_toList, hs]
  exact List.mem_cons_self

theorem Swapped.symbol_mem (h : Swapped s t) : .symbol 'ε' ∈ t := by
  obtain ⟨labels, _, ht⟩ := h
  rw [← SortedSet.mem_toList, ht]
  exact List.mem_cons_self

/-- Without the symbol `ε`, a set is alike to itself only. -/
theorem Alike.eq_of_symbol_not_mem (h : Alike s t) (hs : .symbol 'ε' ∉ s) (ht : .symbol 'ε' ∉ t) :
    s = t := by
  rcases h with h | h | h
  · exact h
  · exact absurd h.symbol_mem ht
  · exact absurd h.symbol_mem hs

/-- So is a set of symbols among sets of symbols. -/
theorem Alike.eq_of_epsilon_not_mem (h : Alike s t) (hs : .epsilon ∉ s) (ht : .epsilon ∉ t) :
    s = t := by
  rcases h with h | h | h
  · exact h
  · exact absurd h.epsilon_mem hs
  · exact absurd h.epsilon_mem ht

/-- Behind its first member a set has symbols only. -/
theorem ne_epsilon_of_toList_eq (h : s.toList = l :: labels) : ∀ m ∈ labels, m ≠ .epsilon := by
  intro m hm
  have hsorted := s.sorted
  rw [h] at hsorted
  exact (Label.compare_eq_lt_iff.mp ((List.pairwise_cons.mp hsorted).1 m hm)).ne_epsilon

/-- Sets with the same glyphs are equal, or they are swapped. -/
theorem map_glyph_eq_iff :
    s.toList.map Label.glyph = t.toList.map Label.glyph ↔ Alike s t := by
  refine ⟨fun h => ?_, ?_⟩
  · cases hs : s.toList with
    | nil =>
      rw [hs] at h
      exact .inl (SortedSet.eq_of_toList_eq (hs.trans (List.map_eq_nil_iff.mp h.symm).symm))
    | cons l labels =>
      cases ht : t.toList with
      | nil =>
        rw [hs, ht] at h
        cases h
      | cons m labels' =>
        rw [hs, ht] at h
        obtain ⟨hhead, htail⟩ := List.cons.inj h
        have hsymbols := congrArg (List.map Label.symbol) htail
        rw [Label.map_symbol_map_glyph (ne_epsilon_of_toList_eq hs),
          Label.map_symbol_map_glyph (ne_epsilon_of_toList_eq ht)] at hsymbols
        subst hsymbols
        rcases Label.glyph_eq_glyph_iff.mp hhead with rfl | ⟨rfl, rfl⟩ | ⟨rfl, rfl⟩
        · exact .inl (SortedSet.eq_of_toList_eq (hs.trans ht.symm))
        · exact .inr (.inl ⟨labels, hs, ht⟩)
        · exact .inr (.inr ⟨labels, ht, hs⟩)
  · rintro (rfl | ⟨labels, hs, ht⟩ | ⟨labels, ht, hs⟩)
    · rfl
    · rw [hs, ht]
      rfl
    · rw [hs, ht]
      rfl

/-- Sets of labels have the same text only if they are equal or swapped. -/
theorem labelText_eq_labelText_iff : labelText s.toList = labelText t.toList ↔ Alike s t :=
  labelText_eq_iff.trans map_glyph_eq_iff

/-- Sets of symbols have different texts. -/
theorem labelText_symbols_inj {s t : SortedSet Char} :
    labelText (s.toList.map .symbol) = labelText (t.toList.map .symbol) ↔ s = t := by
  have hglyph (s : SortedSet Char) : (s.toList.map Label.symbol).map Label.glyph = s.toList := by
    rw [List.map_map]
    exact List.map_id _
  rw [labelText_eq_iff, hglyph, hglyph]
  exact ⟨SortedSet.eq_of_toList_eq, congrArg SortedSet.toList⟩

end Dot

end GrammarAutomata
