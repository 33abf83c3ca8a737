import GrammarAutomata.Proofs.DrawnEdges
import GrammarAutomata.Proofs.EdgeLabels
import GrammarAutomata.Proofs.Pictures

/-!
# Automata that are drawn alike

The text of a drawing shows its picture, and if states have different names, the picture shows the
text of the labels between any two states (`Dot.Drawing.labelText_eq_of_picture_eq`). As this text
tells which labels there are, up to the step that reads nothing and the symbol `ε`, automata that
are drawn alike have the same transitions up to these (`Dot.label_texts_tell_labels`).
-/

namespace GrammarAutomata

namespace Dot.Drawing

variable {g g' : Drawing} {R R' : Transition → Prop} {s t : SortedSet Label} {p q : Nat}

/-! ## The labels between two states -/

/-- Different nodes have different names. -/
def NamesApart (g : Drawing) : Prop := g.names.toList.Nodup

instance (g : Drawing) : Decidable g.NamesApart :=
  inferInstanceAs (Decidable g.names.toList.Nodup)

theorem labelled_of_merges (h : Merges R (g.edges.map Edge.bundle)) : g.Labelled :=
  fun _ he => h.ne_nil (List.mem_map_of_mem he)

/-- If transitions lead from one state to another, the edge between these has their labels. -/
theorem exists_edge_of_mem (h : Merges R (g.edges.map Edge.bundle))
    (hs : ∀ l, l ∈ s ↔ R ⟨p, l, q⟩) {l : Label} (hl : l ∈ s) :
    ∃ e ∈ g.edges, e.bundle = (⟨p, q⟩, s.toList) := by
  obtain ⟨labels, hmem⟩ := (h.joined_iff ⟨p, q⟩).mpr ⟨l, (hs l).mp hl⟩
  obtain rfl := h.labels_eq hmem hs
  exact List.mem_map.mp hmem

section

variable (hpicture : g.picture = g'.picture) (hapart : g.NamesApart)
  (h : Merges R (g.edges.map Edge.bundle)) (h' : Merges R' (g'.edges.map Edge.bundle))
  (hs : ∀ l, l ∈ s ↔ R ⟨p, l, q⟩) (ht : ∀ l, l ∈ t ↔ R' ⟨p, l, q⟩)
include hpicture

theorem names_eq_of_picture_eq : g.names = g'.names :=
  Array.toList_inj.mp (congrArg Picture.names hpicture)

include hapart

/-- A node is known by its name in both drawings. -/
theorem eq_of_name_eq {i : Fin g.names.size} {j : Fin g'.names.size}
    (hname : g'.name j = g.name i) : j.1 = i.1 := by
  have hnames : g.names[j.1]? = g'.names[j.1]? :=
    congrArg (·[j.1]?) (names_eq_of_picture_eq hpicture)
  have hsame : g.names.toList[i.1]? = g.names.toList[j.1]? := by
    rw [Array.getElem?_toList, Array.getElem?_toList, g.getElem?_names, ← hname, hnames,
      g'.getElem?_names]
  exact ((List.getElem?_inj i.2 hapart).mp hsame).symm

include h h' hs ht

/-- Edges with the same names at their ends have the same ends, and their texts are the same. -/
theorem labelText_eq_of_mem {l : Label} (hl : l ∈ s) : labelText s.toList = labelText t.toList := by
  obtain ⟨e, he, hbundle⟩ := exists_edge_of_mem h hs hl
  have hshown : g.arrow e ∈ g'.picture.arrows := hpicture ▸ List.mem_map_of_mem he
  obtain ⟨e', he', harrow⟩ := List.mem_map.mp hshown
  have hbundle' : e'.bundle = (⟨p, q⟩, e'.labels) := by
    rw [Edge.bundle, eq_of_name_eq hpicture hapart (congrArg Arrow.source harrow),
      eq_of_name_eq hpicture hapart (congrArg Arrow.target harrow)]
    exact congrArg (·.1, e'.labels) hbundle
  have hlabels : e.labels = s.toList := congrArg Prod.snd hbundle
  have hlabels' : e'.labels = t.toList := h'.labels_eq (List.mem_map.mpr ⟨e', he', hbundle'⟩) ht
  rw [← hlabels, ← hlabels']
  exact (congrArg Arrow.label harrow).symm

/-- If states have different names, a picture tells the text of the labels between any two. -/
theorem labelText_eq_of_picture_eq : labelText s.toList = labelText t.toList := by
  by_cases hmem : ∃ l, l ∈ s
  · obtain ⟨l, hl⟩ := hmem
    exact labelText_eq_of_mem hpicture hapart h h' hs ht hl
  by_cases hmem' : ∃ l, l ∈ t
  · obtain ⟨l, hl⟩ := hmem'
    have hapart' : g'.NamesApart := by
      rw [NamesApart, ← names_eq_of_picture_eq hpicture]
      exact hapart
    exact (labelText_eq_of_mem hpicture.symm hapart' h' h ht hs hl).symm
  -- no transition leads from the one to the other
  · rw [SortedSet.eq_empty_iff.mpr (not_exists.mp hmem),
      SortedSet.eq_empty_iff.mpr (not_exists.mp hmem')]

end

end Dot.Drawing

/-! ## The same drawing -/

namespace Nfa

variable {n m : Nfa} {p q : Nat} {l : Label}

/-- The labels of the transitions from one state to another. -/
def labelsBetween (n : Nfa) (p q : Nat) : SortedSet Label := .ofList (Dot.labelsTo (n.steps p) q)

theorem mem_labelsBetween : l ∈ n.labelsBetween p q ↔ ⟨p, l, q⟩ ∈ n.transitions := by
  rw [labelsBetween, SortedSet.mem_ofList, Dot.mem_labelsTo, mem_steps]

theorem picture_eq_of_toDot_eq (h : n.toDot = m.toDot) : n.drawing.picture = m.drawing.picture :=
  Dot.Drawing.picture_eq_of_text_eq rfl (Dot.Drawing.labelled_of_merges n.depicts_drawing.merges)
    (Dot.Drawing.labelled_of_merges m.depicts_drawing.merges) h

/-- Automata that are drawn alike have the same text of labels between any two states. -/
theorem alike_of_toDot_eq (hapart : n.drawing.NamesApart) (h : n.toDot = m.toDot) (p q : Nat) :
    Dot.Alike (n.labelsBetween p q) (m.labelsBetween p q) :=
  Dot.labelText_eq_labelText_iff.mp (Dot.Drawing.labelText_eq_of_picture_eq
    (picture_eq_of_toDot_eq h) hapart n.depicts_drawing.merges m.depicts_drawing.merges
    (fun _ => mem_labelsBetween) fun _ => mem_labelsBetween)

/-- If they do not read the symbol `ε` they have the same transitions. -/
theorem mem_transitions_iff_of_toDot_eq (hapart : n.drawing.NamesApart) (h : n.toDot = m.toDot)
    (hn : ¬ n.Reads 'ε') (hm : ¬ m.Reads 'ε') (t : Transition) :
    t ∈ n.transitions ↔ t ∈ m.transitions := by
  have heq := (alike_of_toDot_eq hapart h t.source t.target).eq_of_symbol_not_mem
    (fun hmem => hn ⟨_, _, mem_labelsBetween.mp hmem⟩)
    (fun hmem => hm ⟨_, _, mem_labelsBetween.mp hmem⟩)
  rw [← mem_labelsBetween (l := t.label), heq, mem_labelsBetween]

end Nfa

namespace Dfa

variable {d d' : Dfa} {p q : Nat} {l : Label} {text : String}

/-- The labels of the transitions from one state to another, which are symbols. -/
def labelsBetween (d : Dfa) (p q : Nat) : SortedSet Label := .ofList (Dot.labelsTo (d.steps p) q)

theorem mem_labelsBetween : l ∈ d.labelsBetween p q ↔ d.Takes ⟨p, l, q⟩ := by
  rw [labelsBetween, SortedSet.mem_ofList, Dot.mem_labelsTo, mem_steps]
  rfl

theorem epsilon_not_mem_labelsBetween : .epsilon ∉ d.labelsBetween p q := by
  rw [mem_labelsBetween]
  rintro ⟨_, _, _, hl, _⟩
  cases hl

theorem picture_eq_of_toDot?_eq (h : d.toDot? = some text) (h' : d'.toDot? = some text) :
    d.drawing.picture = d'.drawing.picture := by
  obtain ⟨hrange, htext⟩ := toDot?_eq_some_iff.mp h
  obtain ⟨hrange', htext'⟩ := toDot?_eq_some_iff.mp h'
  exact Dot.Drawing.picture_eq_of_text_eq rfl
    (Dot.Drawing.labelled_of_merges (depicts_drawing hrange).merges)
    (Dot.Drawing.labelled_of_merges (depicts_drawing hrange').merges) (htext.trans htext'.symm)

theorem alike_of_toDot?_eq (hapart : d.drawing.NamesApart) (h : d.toDot? = some text)
    (h' : d'.toDot? = some text) (p q : Nat) :
    Dot.Alike (d.labelsBetween p q) (d'.labelsBetween p q) :=
  Dot.labelText_eq_labelText_iff.mp (Dot.Drawing.labelText_eq_of_picture_eq
    (picture_eq_of_toDot?_eq h h') hapart (depicts_drawing (toDot?_eq_some_iff.mp h).1).merges
    (depicts_drawing (toDot?_eq_some_iff.mp h').1).merges (fun _ => mem_labelsBetween)
    fun _ => mem_labelsBetween)

/-- Deterministic automata that are drawn alike have the same transitions, which never read
nothing. -/
theorem takes_iff_of_toDot?_eq (hapart : d.drawing.NamesApart) (h : d.toDot? = some text)
    (h' : d'.toDot? = some text) (t : Transition) : d.Takes t ↔ d'.Takes t := by
  have heq : d.labelsBetween t.source t.target = d'.labelsBetween t.source t.target :=
    (alike_of_toDot?_eq hapart h h' _ _).eq_of_epsilon_not_mem epsilon_not_mem_labelsBetween
      epsilon_not_mem_labelsBetween
  rw [← mem_labelsBetween (l := t.label), heq, mem_labelsBetween]

end Dfa

namespace Dot

/-- **The text of its labels tells what an edge stands for.** Two sets of labels have the same text
if and only if they are equal or the one has the step that reads nothing where the other has the
symbol `ε`, before all other members. Sets of symbols are never taken for each other, even if the
comma is a symbol. So if states have different names, two automata that are drawn alike have the
same names of states and between any two states the same labels, up to this exchange. They have the
same transitions if neither reads the symbol `ε`, and in any case if they are deterministic. -/
theorem label_texts_tell_labels :
    (∀ s t : SortedSet Label, labelText s.toList = labelText t.toList ↔ Alike s t) ∧
    (∀ s t : SortedSet Char,
      labelText (s.toList.map .symbol) = labelText (t.toList.map .symbol) ↔ s = t) ∧
    (∀ n m : Nfa, n.drawing.NamesApart → n.toDot = m.toDot →
      n.names = m.names ∧ (∀ p q, Alike (n.labelsBetween p q) (m.labelsBetween p q)) ∧
      (¬ n.Reads 'ε' → ¬ m.Reads 'ε' → ∀ t, t ∈ n.transitions ↔ t ∈ m.transitions)) ∧
    ∀ (d d' : Dfa) (text : String), d.drawing.NamesApart → d.toDot? = some text →
      d'.toDot? = some text → d.names = d'.names ∧ ∀ t, d.Takes t ↔ d'.Takes t := by
  refine ⟨fun s t => labelText_eq_labelText_iff, fun s t => labelText_symbols_inj, ?_, ?_⟩
  · intro n m hapart h
    exact ⟨Drawing.names_eq_of_picture_eq (Nfa.picture_eq_of_toDot_eq h),
      Nfa.alike_of_toDot_eq hapart h, Nfa.mem_transitions_iff_of_toDot_eq hapart h⟩
  · intro d d' text hapart h h'
    exact ⟨Drawing.names_eq_of_picture_eq (Dfa.picture_eq_of_toDot?_eq h h'),
      Dfa.takes_iff_of_toDot?_eq hapart h h'⟩

/-- The automaton with one transition, which reads `l`. -/
def oneStep (alphabet : SortedSet Char) (l : Label) : Nfa :=
  .ofTransitions [.nonterminal 'A', .accept] alphabet 0 {1} [⟨0, l, 1⟩] (by decide) (by decide)
    (by simp)

/-- Automata that differ in nothing but their alphabets are drawn alike, also if a symbol is a
comma. -/
theorem label_texts_tell_labels_alphabets :
    ((oneStep {'a'} .epsilon).drawing.NamesApart ∧
      (oneStep {'a'} .epsilon).toDot = (oneStep {'b'} .epsilon).toDot ∧
      ¬ (oneStep {'a'} .epsilon).Reads 'ε' ∧ ¬ (oneStep {'b'} .epsilon).Reads 'ε' ∧
      ∀ t, t ∈ (oneStep {'a'} .epsilon).transitions ↔ t ∈ (oneStep {'b'} .epsilon).transitions) ∧
    loopedSample.drawing.NamesApart ∧ ∃ text, loopedSample.toDot? = some text ∧
      { loopedSample with alphabet := ∅ }.toDot? = some text ∧
      ∀ t, loopedSample.Takes t ↔ { loopedSample with alphabet := ∅ }.Takes t := by
  have hreads (alphabet : SortedSet Char) : ¬ (oneStep alphabet .epsilon).Reads 'ε' := by
    rintro ⟨p, q, h⟩
    cases List.mem_singleton.mp (Nfa.mem_transitions_ofTransitions.mp h)
  have hapart : (oneStep {'a'} .epsilon).drawing.NamesApart := by decide
  have htext : (oneStep {'a'} .epsilon).toDot = (oneStep {'b'} .epsilon).toDot := by
    decide +kernel
  have hapart' : loopedSample.drawing.NamesApart := by decide +kernel
  obtain ⟨_, _, hnfa, hdfa⟩ := label_texts_tell_labels
  refine ⟨⟨hapart, htext, hreads _, hreads _, (hnfa _ _ hapart htext).2.2 (hreads _) (hreads _)⟩,
    hapart', loopedSample.drawing.text, by decide +kernel, by decide +kernel, ?_⟩
  exact (hdfa _ _ loopedSample.drawing.text hapart' (by decide +kernel) (by decide +kernel)).2

/-- The deterministic automaton with two states of one name and one transition, which leads
to `q`. -/
def oneName (q : Nat) : Dfa where
  states := #[⟨"A", ∅, false, .ofList [('a', q)]⟩, ⟨"A", ∅, true, .empty⟩]
  alphabet := {'a'}
  size_pos := Nat.zero_lt_succ _

/-- The step that reads nothing and the one that reads `ε` have the same text, so automata that
differ in them are drawn alike. Transitions to states of one name are drawn alike as well. -/
theorem not_label_texts_tell_labels :
    (¬ ∀ s t : SortedSet Label, s ≠ ∅ → t ≠ ∅ → s ≠ t →
      labelText s.toList ≠ labelText t.toList) ∧
    (¬ ∀ n m : Nfa, n.drawing.NamesApart → n.toDot = m.toDot →
      ∀ t, t ∈ n.transitions ↔ t ∈ m.transitions) ∧
    ¬ ∀ (d d' : Dfa) (text : String), d.toDot? = some text → d'.toDot? = some text →
      ∀ t, d.Takes t ↔ d'.Takes t := by
  refine ⟨fun hall => ?_, fun hall => ?_, fun hall => ?_⟩
  · exact hall {.epsilon} {.symbol 'ε'} (by decide) (by decide) (by decide) (by decide)
  · have hmem := hall (oneStep ∅ .epsilon) (oneStep ∅ (.symbol 'ε')) (by decide)
      (by decide +kernel) ⟨0, .epsilon, 1⟩
    exact absurd hmem (by decide)
  · have htakes := hall (oneName 0) (oneName 1) _ rfl (by decide +kernel) ⟨0, .symbol 'a', 0⟩
    obtain ⟨s, c, hs, hl, hc⟩ := htakes.mp ⟨_, 'a', rfl, rfl, by decide⟩
    cases hl
    cases hs
    exact absurd hc (by decide)

end Dot

end GrammarAutomata
