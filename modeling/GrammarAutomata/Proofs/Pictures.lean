import GrammarAutomata.Proofs.LabelTexts

/-!
# Pictures

The text of a drawing shows the names of its nodes and, for each edge, the names of its ends and
the text of its labels (`Dot.Drawing.picture`). A name may hold any characters, a new line among
them, and labels are not escaped. Nevertheless all that is shown can be read off the text, from its
beginning to its end (`Dot.Drawing.picture_eq_of_text_eq`).
-/

namespace GrammarAutomata.Dot

/-! ## What is shown -/

/-- What is shown of an edge. -/
structure Arrow where
  /-- the name of the node where it begins -/
  source : String
  /-- the name of the node where it ends -/
  target : String
  /-- the text of its labels -/
  label : String

/-- What is shown of a graph. -/
structure Picture where
  /-- the names of the nodes -/
  names : List String
  /-- the names of those drawn as double circles -/
  finals : List String
  /-- the name of the node that the arrow from nowhere points to -/
  start : String
  /-- the edges -/
  arrows : List Arrow

/-- The line that shows an edge. -/
def Arrow.line (a : Arrow) : String :=
  "    " ++ quote a.source ++ " -> " ++ quote a.target ++ " [label = \"" ++ a.label ++ "\"];"

namespace Drawing

variable (g : Drawing)

/-- What is shown of an edge. -/
def arrow (e : Edge g.names.size) : Arrow :=
  ⟨g.name e.source, g.name e.target, labelText e.labels⟩

/-- What is shown of a drawing. -/
def picture : Picture where
  names := g.names.toList
  finals := g.finals.map g.name
  start := g.name g.start
  arrows := g.edges.map g.arrow

end Drawing

namespace Picture

/-- The line that announces the final nodes, if there are any. -/
def finalsLine (finals : List String) : List String :=
  if finals = [] then []
  else ["    node [shape = doublecircle]; " ++ " ".intercalate (finals.map quote) ++ ";"]

/-- The lines that show a graph. -/
def lines (pic : Picture) (title : String) : List String :=
  ["digraph " ++ title ++ " \x7b",
    "    rankdir=LR;",
    "    __start [label = \"\", shape = none, width = 0, height = 0];"] ++
  (finalsLine pic.finals ++ (["    node [shape = circle];"] ++
  (pic.names.map (fun name => "    " ++ quote name ++ ";") ++
  (["    __start -> " ++ quote pic.start ++ ";"] ++
  (pic.arrows.map Arrow.line ++ ["\x7d"])))))

end Picture

/-- The lines of a drawing show its picture and nothing else. -/
theorem Drawing.lines_eq_lines_picture (g : Drawing) : g.lines = g.picture.lines g.title := by
  have hfinals : g.finalsLine = Picture.finalsLine g.picture.finals := by
    simp only [finalsLine, Picture.finalsLine, picture, List.map_eq_nil_iff, List.map_map]
    rfl
  rw [lines, hfinals, Picture.lines, picture, List.map_map]
  simp only [List.append_assoc]
  rfl

/-! ## Reading it off -/

variable {s s' : String} {rest rest' : List Char}

/-- A line as it stands in a text. -/
def ended (line : String) : List Char := line.toList ++ ['\n']

namespace Arrow

variable {a a' : Arrow}

/-- There is a label where there is an edge. -/
def Labelled (a : Arrow) : Prop := ∃ labels, labels ≠ [] ∧ a.label = labelText labels

theorem ended_line (a : Arrow) : ended a.line =
    "    ".toList ++ ((quote a.source).toList ++ (" -> ".toList ++ ((quote a.target).toList ++
      (" [label = \"".toList ++ (a.label.toList ++ '"' :: [']', ';', '\n']))))) := by
  simp [ended, line]

/-- An edge can be read off. -/
theorem line_append_inj (ha : a.Labelled) (ha' : a'.Labelled)
    (h : ended a.line ++ rest = ended a'.line ++ rest') : a = a' ∧ rest = rest' := by
  obtain ⟨source, target, label⟩ := a
  obtain ⟨source', target', label'⟩ := a'
  obtain ⟨labels, hne, rfl⟩ := ha
  obtain ⟨labels', hne', rfl⟩ := ha'
  rw [ended_line, ended_line] at h
  simp only [List.append_assoc, List.cons_append, List.nil_append] at h
  obtain ⟨hsource, htail⟩ := quote_append_inj (List.append_cancel_left h)
  obtain ⟨htarget, htail⟩ := quote_append_inj (List.append_cancel_left htail)
  obtain ⟨hglyphs, htail⟩ := labelText_append_inj hne hne' (List.append_cancel_left htail)
  have hend : [']', ';', '\n'] ++ rest = [']', ';', '\n'] ++ rest' := htail
  rw [hsource, htarget, labelText_eq_of_map_glyph_eq hglyphs]
  exact ⟨rfl, List.append_cancel_left hend⟩

/-- The last line shows no edge. -/
theorem line_append_ne (a : Arrow) (rest rest' : List Char) :
    ended a.line ++ rest ≠ ended "\x7d" ++ rest' := by
  rw [ended_line]
  intro h
  have hchar : some ' ' = some '\x7d' := congrArg (·[0]?) h
  cases hchar

end Arrow

namespace Picture

theorem ended_nodeLine (name : String) : ended ("    " ++ quote name ++ ";") =
    "    ".toList ++ ((quote name).toList ++ [';', '\n']) := by
  simp [ended]

/-- A node can be read off. -/
theorem nodeLine_append_inj
    (h : ended ("    " ++ quote s ++ ";") ++ rest = ended ("    " ++ quote s' ++ ";") ++ rest') :
    s = s' ∧ rest = rest' := by
  rw [ended_nodeLine, ended_nodeLine] at h
  simp only [List.append_assoc] at h
  obtain ⟨hname, htail⟩ := quote_append_inj (List.append_cancel_left h)
  exact ⟨hname, List.append_cancel_left htail⟩

/-- The line of the arrow from nowhere shows no node. -/
theorem nodeLine_append_ne (s : String) (rest rest' : List Char) :
    ended ("    " ++ quote s ++ ";") ++ rest ≠ "    __start -> ".toList ++ rest' := by
  rw [ended_nodeLine, toList_quote]
  intro h
  have hchar : some '"' = some '_' := congrArg (·[4]?) h
  cases hchar

theorem ended_startLine (name : String) : ended ("    __start -> " ++ quote name ++ ";") =
    "    __start -> ".toList ++ ((quote name).toList ++ [';', '\n']) := by
  simp [ended]

theorem flatMap_finalsLine (name : String) (names : List String) :
    (finalsLine (name :: names)).flatMap ended =
      "    node [shape = doublecircle]; ".toList ++ ((quote name).toList ++
        (names.flatMap (fun name => ' ' :: (quote name).toList) ++ [';', '\n'])) := by
  rw [finalsLine, if_neg (List.cons_ne_nil name names)]
  simp [ended, String.toList_intercalate, intercalate_cons, List.flatMap_map]

/-- The final nodes can be read off, whether there are any or not. -/
theorem finalsLine_append_inj {finals finals' : List String}
    (h : (finalsLine finals).flatMap ended ++ (ended "    node [shape = circle];" ++ rest) =
      (finalsLine finals').flatMap ended ++ (ended "    node [shape = circle];" ++ rest')) :
    finals = finals' ∧ rest = rest' := by
  have hshape (rest rest' : List Char) : ended "    node [shape = circle];" ++ rest ≠
      "    node [shape = doublecircle]; ".toList ++ rest' := by
    intro h
    have hchar : some 'c' = some 'd' := congrArg (·[18]?) h
    cases hchar
  cases finals with
  | nil =>
    cases finals' with
    | nil => exact ⟨rfl, List.append_cancel_left h⟩
    | cons name' finals' =>
      rw [flatMap_finalsLine, List.append_assoc] at h
      exact absurd h (hshape _ _)
  | cons name finals =>
    cases finals' with
    | nil =>
      rw [flatMap_finalsLine, List.append_assoc] at h
      exact absurd h.symm (hshape _ _)
    | cons name' finals' =>
      rw [flatMap_finalsLine, flatMap_finalsLine] at h
      simp only [List.append_assoc] at h
      obtain ⟨hname, hnames⟩ := quote_append_inj (List.append_cancel_left h)
      -- a blank goes on, a semicolon ends the names
      obtain ⟨hfinals, hrest⟩ := flatMap_append_inj (f := fun name => ' ' :: (quote name).toList)
        [';', '\n'] (fun _ _ _ h => absurd (List.cons.inj h).1 (by decide))
        (fun _ _ _ _ _ _ h => quote_append_inj (List.cons.inj h).2) hnames
      rw [hname, hfinals]
      exact ⟨rfl, List.append_cancel_left hrest⟩

/-- A picture can be read off its lines. -/
theorem eq_of_lines_eq {pic pic' : Picture} {title : String}
    (hlabelled : ∀ a ∈ pic.arrows, a.Labelled) (hlabelled' : ∀ a ∈ pic'.arrows, a.Labelled)
    (h : (pic.lines title).flatMap ended = (pic'.lines title).flatMap ended) : pic = pic' := by
  obtain ⟨names, finals, start, arrows⟩ := pic
  obtain ⟨names', finals', start', arrows'⟩ := pic'
  -- so that something follows the last line
  replace h := congrArg (· ++ []) h
  simp only [lines, List.flatMap_append, List.flatMap_map, List.flatMap_singleton,
    ended_startLine, List.append_assoc] at h
  obtain ⟨rfl, hnodes⟩ := finalsLine_append_inj (List.append_cancel_left h)
  obtain ⟨rfl, hstart⟩ := flatMap_append_inj _ nodeLine_append_ne
    (fun _ _ _ _ _ _ => nodeLine_append_inj) hnodes
  obtain ⟨rfl, htail⟩ := quote_append_inj hstart
  obtain ⟨rfl, _⟩ := flatMap_append_inj _ Arrow.line_append_ne (fun a ha a' ha' _ _ =>
    Arrow.line_append_inj (hlabelled a ha) (hlabelled' a' ha')) (List.append_cancel_left htail)
  rfl

end Picture

namespace Drawing

variable {g g' : Drawing}

theorem toList_text (g : Drawing) : g.text.toList = g.lines.flatMap ended := by
  rw [text, String.toList_join, List.flatMap_map]
  exact congrArg (List.flatMap · g.lines) (funext fun _ => String.toList_append)

/-- No edge is without labels. -/
def Labelled (g : Drawing) : Prop := ∀ e ∈ g.edges, e.labels ≠ []

theorem Labelled.arrows (h : g.Labelled) : ∀ a ∈ g.picture.arrows, a.Labelled := by
  intro a ha
  obtain ⟨e, he, rfl⟩ := List.mem_map.mp ha
  exact ⟨e.labels, h e he, rfl⟩

/-- What is shown can be read off the text. -/
theorem picture_eq_of_text_eq (htitle : g.title = g'.title) (hg : g.Labelled) (hg' : g'.Labelled)
    (h : g.text = g'.text) : g.picture = g'.picture := by
  have hlines := congrArg String.toList h
  rw [toList_text, toList_text, lines_eq_lines_picture, lines_eq_lines_picture, htitle] at hlines
  exact Picture.eq_of_lines_eq hg.arrows hg'.arrows hlines

end Drawing

end GrammarAutomata.Dot
