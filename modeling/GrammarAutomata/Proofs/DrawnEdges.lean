import GrammarAutomata.Dfa.Drawing
import GrammarAutomata.Nfa.Drawing
import GrammarAutomata.Proofs.MergedEdges

/-!
# Drawn edges

In the text of a drawing the lines of the edges stand behind those of the nodes. For both
kinds of automata they are what the transitions say, merged by their ends: a line for each
pair of states that transitions join, in the order of the pairs, with the names of the two
and the labels of all transitions between them (`Dot.Drawing.Depicts`). Nothing is asked of an
automaton but that its transitions lead to states that exist
(`Dot.edges_depict_transitions`).
-/

namespace GrammarAutomata

namespace Dot.Drawing

variable {g : Drawing} {name? : Nat → Option String} {R : Transition → Prop}
  {steps : Nat → List (Label × Nat)}

/-- The lines before those of the edges. -/
def linesBefore (g : Drawing) : List String :=
  ["digraph " ++ g.title ++ " \x7b",
    "    rankdir=LR;",
    "    __start [label = \"\", shape = none, width = 0, height = 0];"] ++
  g.finalsLine ++
  ["    node [shape = circle];"] ++
  g.names.toList.map (fun name => "    " ++ quote name ++ ";") ++
  ["    __start -> " ++ g.node g.start ++ ";"]

theorem lines_eq (g : Drawing) :
    g.lines = g.linesBefore ++ g.edges.map g.edgeLine ++ ["\x7d"] := rfl

/-- The edges in the text of a drawing are those of the transitions of which `R` holds. -/
structure Depicts (g : Drawing) (text : String) (name? : Nat → Option String)
    (R : Transition → Prop) (count : Nat) : Prop where
  /-- each edge has a line, behind those of the nodes -/
  text_eq : text =
    String.join ((g.linesBefore ++ g.edges.map g.edgeLine ++ ["\x7d"]).map (· ++ "\n"))
  /-- it shows the names of the two states and the labels, joined by commas -/
  edgeLine_eq : ∀ e ∈ g.edges, ∃ source target, name? e.source = some source ∧
    name? e.target = some target ∧
    g.edgeLine e = "    " ++ quote source ++ " -> " ++ quote target ++ " [label = \"" ++
      ",".intercalate (e.labels.map Label.text) ++ "\"];"
  /-- the edges are the transitions, merged by their ends -/
  merges : Merges R (g.edges.map Edge.bundle)
  /-- together they have that many labels -/
  sum_eq : (g.edges.map (·.labels.length)).sum = count

/-- A drawing depicts the steps that it was made from. -/
theorem depicts (hedges : g.edges = edgesOf g.names.size steps) (hsteps : Steps g.names.size steps)
    (hname : ∀ q : Fin g.names.size, name? q = some (g.name q))
    (hR : ∀ t, t ∈ transitionsOf g.names.size steps ↔ R t) :
    g.Depicts g.text name? R (transitionsOf g.names.size steps).length where
  text_eq := by rw [text, lines_eq]
  edgeLine_eq e _ := ⟨_, _, hname e.source, hname e.target, rfl⟩
  merges := by
    rw [hedges, ← funext fun t => propext (hR t)]
    exact hsteps.merges_edgesOf
  sum_eq := by rw [hedges, hsteps.sum_length_labels]

end Dot.Drawing

namespace Nfa

variable (n : Nfa)

theorem steps_drawing : Dot.Steps n.drawing.names.size n.steps where
  target_lt p s hs := by
    have hsize : n.drawing.names.size = n.size := size_names
    rw [hsize]
    exact lt_size_of_mem_transitions (mem_steps.mp hs)
  ascending p := List.pairwise_map.mpr <| (n.moves p).pairwise_toList.imp fun h htarget =>
    -- of two moves to the same state the labels decide
    h.resolve_right fun hsame => Nat.ne_of_lt hsame.2 htarget

theorem transitionsOf_steps : Dot.transitionsOf n.drawing.names.size n.steps = n.transitions := by
  have hsize : n.drawing.names.size = n.size := size_names
  rw [hsize]
  simp only [Dot.transitionsOf, NfaStore.transitions, n.wellFormed.size_rows, steps, List.map_map,
    Function.comp_def]

theorem name?_eq_name (q : Fin n.drawing.names.size) : n.name? q = some (n.drawing.name q) := by
  rw [← n.drawing.getElem?_names]
  show n.name? q.1 = n.names[q.1]?
  rw [NfaStore.names, Array.getElem?_mapIdx, NfaStore.name?]

/-- The edges in the drawing of an automaton are its transitions. -/
theorem depicts_drawing :
    n.drawing.Depicts n.toDot n.name? (· ∈ n.transitions) n.numTransitions := by
  have h := Dot.Drawing.depicts rfl n.steps_drawing n.name?_eq_name fun _ => Iff.rfl
  rw [n.transitionsOf_steps] at h
  exact h

/-- They are the same as if the transitions were gathered one by one. -/
theorem gather_transitions :
    (Dot.gather n.transitions).toList = n.drawing.edges.map Dot.Edge.bundle := by
  rw [← n.transitionsOf_steps]
  exact n.steps_drawing.gather_eq

end Nfa

namespace Dfa

variable {d : Dfa} {t : Transition}

/-- The row of the state in which it begins has the transition. -/
def Takes (d : Dfa) (t : Transition) : Prop :=
  ∃ s c, d.state? t.source = some s ∧ t.label = .symbol c ∧ s.row.get? c = some t.target

/-- The name of a state, if it exists. -/
def name? (d : Dfa) (q : Nat) : Option String := (d.state? q).map (·.name)

/-- The number of entries of all rows. -/
def numEntries (d : Dfa) : Nat := (d.states.toList.map (·.row.entries.length)).sum

/-- All transitions, row by row. -/
def transitions (d : Dfa) : List Transition := Dot.transitionsOf d.size d.steps

theorem mem_transitions : t ∈ d.transitions ↔ d.Takes t := by
  rw [transitions, Dot.mem_transitionsOf, mem_steps]
  refine and_iff_right_of_imp ?_
  rintro ⟨s, _, hs, _⟩
  exact (Array.getElem?_eq_some_iff.mp hs).1

theorem length_transitions (d : Dfa) : d.transitions.length = d.numEntries := by
  rw [transitions, Dot.transitionsOf, List.length_flatMap, numEntries]
  refine congrArg List.sum (List.ext_getElem (by simp [size]) fun p hp hp' => ?_)
  have hlt : p < d.states.size := by simpa using hp'
  have hstate : d.state? p = some d.states[p] := Array.getElem?_eq_getElem hlt
  simp [steps, hstate]

theorem steps_drawing (h : ∀ t, d.Takes t → t.target < d.size) :
    Dot.Steps d.drawing.names.size d.steps where
  target_lt p s hs := by
    have hsize : d.drawing.names.size = d.size := Array.size_map
    rw [hsize]
    exact h ⟨p, s.1, s.2⟩ (mem_steps.mp hs)
  ascending p := by
    unfold steps
    split
    · rename_i s _
      refine List.pairwise_map.mpr (s.row.sorted.imp fun hlt _ => ?_)
      exact compareOfLessAndEq_eq_lt.mp hlt
    · exact List.Pairwise.nil

theorem toDot?_eq_some_iff {text : String} :
    d.toDot? = some text ↔ (∀ t, d.Takes t → t.target < d.size) ∧ d.drawing.text = text := by
  rw [toDot?, Option.ite_none_right_eq_some, Option.some.injEq]
  refine and_congr_left fun _ => ⟨?_, fun h s hs q hq => ?_⟩
  · rintro h t ⟨s, c, hs, _, hc⟩
    exact h s (Array.mem_of_getElem? hs) _
      (List.mem_map.mpr ⟨(c, t.target), SortedMap.mem_entries_iff.mpr hc, rfl⟩)
  · obtain ⟨p, hp, rfl⟩ := Array.mem_iff_getElem.mp hs
    obtain ⟨⟨c, q⟩, he, rfl⟩ := List.mem_map.mp hq
    exact h ⟨p, .symbol c, q⟩ ⟨_, c, Array.getElem?_eq_getElem hp, rfl, SortedMap.mem_entries_iff.mp he⟩

theorem name?_eq_name (q : Fin d.drawing.names.size) : d.name? q = some (d.drawing.name q) := by
  rw [← d.drawing.getElem?_names]
  exact Array.getElem?_map.symm

/-- The edges in the drawing of a deterministic automaton are the entries of its rows. -/
theorem depicts_drawing (h : ∀ t, d.Takes t → t.target < d.size) :
    d.drawing.Depicts d.drawing.text d.name? d.Takes d.numEntries := by
  have hsize : d.drawing.names.size = d.size := Array.size_map
  have hmem (t : Transition) : t ∈ Dot.transitionsOf d.drawing.names.size d.steps ↔ d.Takes t := by
    rw [hsize]
    exact mem_transitions
  have hdepicts := Dot.Drawing.depicts rfl (steps_drawing h) name?_eq_name hmem
  rw [hsize] at hdepicts
  rw [← length_transitions]
  exact hdepicts

/-- They are the same as if the entries were gathered one by one. -/
theorem gather_transitions (h : ∀ t, d.Takes t → t.target < d.size) :
    (Dot.gather d.transitions).toList = d.drawing.edges.map Dot.Edge.bundle := by
  have hsize : d.drawing.names.size = d.size := Array.size_map
  rw [transitions, ← hsize]
  exact (steps_drawing h).gather_eq

end Dfa

namespace Dot

/-- **Drawn edges are the transitions, merged without loss.** In the text of a drawing there is
one line for each pair of states that transitions join, by source and then by target, with the
names of the two and all labels of these transitions in their order. Together the lines have
as many labels as there are transitions, or entries in the rows of a deterministic automaton.
Labels that are not in the alphabet are drawn as well. The same edges come from going through
the transitions once and putting each label behind those gathered so far for its ends. -/
theorem edges_depict_transitions :
    (∀ n : Nfa, n.drawing.Depicts n.toDot n.name? (· ∈ n.transitions) n.numTransitions ∧
      (gather n.transitions).toList = n.drawing.edges.map Edge.bundle) ∧
    ∀ d : Dfa, (∀ t, d.Takes t → t.target < d.size) → ∃ text, d.toDot? = some text ∧
      d.drawing.Depicts text d.name? d.Takes d.numEntries ∧
      (gather d.transitions).toList = d.drawing.edges.map Edge.bundle := by
  refine ⟨fun n => ⟨n.depicts_drawing, n.gather_transitions⟩, fun d h => ?_⟩
  exact ⟨_, Dfa.toDot?_eq_some_iff.mpr ⟨h, rfl⟩, Dfa.depicts_drawing h, Dfa.gather_transitions h⟩

/-- An automaton with loops and with two symbols between the same states, of which one is a comma
and not in the alphabet. -/
def loopedSample : Dfa where
  states := #[⟨"p", ∅, false, .ofList [(',', 1), ('b', 0), ('a', 1)]⟩,
    ⟨"q", ∅, true, .ofList [('a', 1)]⟩]
  alphabet := {'a'}
  size_pos := by decide

/-- It is drawn with three edges for its four entries. -/
theorem edges_depict_transitions_loopedSample :
    (∀ t, loopedSample.Takes t → t.target < loopedSample.size) ∧
    ∃ text, loopedSample.toDot? = some text ∧
      loopedSample.drawing.Depicts text loopedSample.name? loopedSample.Takes 4 ∧
      loopedSample.drawing.edges.map Edge.bundle = [(⟨0, 0⟩, [.symbol 'b']),
        (⟨0, 1⟩, [.symbol ',', .symbol 'a']), (⟨1, 1⟩, [.symbol 'a'])] := by
  have hrange : ∀ t, loopedSample.Takes t → t.target < loopedSample.size := by
    have hall : ∀ t ∈ loopedSample.transitions, t.target < loopedSample.size := by decide
    exact fun t ht => hall t (Dfa.mem_transitions.mpr ht)
  obtain ⟨text, htext, hdepicts, _⟩ := edges_depict_transitions.2 loopedSample hrange
  exact ⟨hrange, text, htext, hdepicts, by decide +kernel⟩

end Dot

end GrammarAutomata
