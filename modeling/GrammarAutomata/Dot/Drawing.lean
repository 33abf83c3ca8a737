import GrammarAutomata.Dot.Quoted
import GrammarAutomata.Label
import GrammarAutomata.SortedSet

/-!
# Drawings

A directed graph as it is to be drawn in the DOT language. All transitions
between two states are one edge, which carries their labels; final states are
drawn as double circles, and an arrow from nowhere points to the initial state.
Every end of an edge is a node of the drawing, because the type says so.
-/

namespace GrammarAutomata.Dot

/-- An edge between two of `n` nodes. -/
structure Edge (n : Nat) where
  /-- where it begins -/
  source : Fin n
  /-- where it ends -/
  target : Fin n
  /-- the labels of the transitions that it stands for -/
  labels : List Label
  deriving DecidableEq

/-- What is to be drawn. -/
structure Drawing where
  /-- what the graph is called -/
  title : String
  /-- the names of the nodes -/
  names : Array String
  /-- the nodes drawn as double circles -/
  finals : List (Fin names.size)
  /-- the node that the arrow from nowhere points to -/
  start : Fin names.size
  /-- the edges, in the order in which they are drawn -/
  edges : List (Edge names.size)

/-- The labels of the steps that lead to `q`, in order. -/
def labelsTo (steps : List (Label × Nat)) (q : Nat) : List Label :=
  (steps.filter (·.2 = q)).map (·.1)

/-- The edge for all steps from `p` to `q`, if both are nodes. -/
def edge? (n : Nat) (p : Fin n) (steps : List (Label × Nat)) (q : Nat) : Option (Edge n) :=
  if h : q < n then some ⟨p, ⟨q, h⟩, labelsTo steps q⟩ else none

/-- The edges that join the nodes between which there are steps, by source and
then by target. -/
def edgesOf (n : Nat) (steps : Nat → List (Label × Nat)) : List (Edge n) :=
  (List.finRange n).flatMap fun (p : Fin n) =>
    (SortedSet.ofList ((steps p).map (·.2))).toList.filterMap (edge? n p (steps p))

theorem mem_labelsTo {steps : List (Label × Nat)} {q : Nat} {l : Label} :
    l ∈ labelsTo steps q ↔ (l, q) ∈ steps := by
  simp only [labelsTo, List.mem_map, List.mem_filter, decide_eq_true_eq]
  refine ⟨?_, fun h => ⟨_, ⟨h, rfl⟩, rfl⟩⟩
  rintro ⟨s, ⟨h, rfl⟩, rfl⟩
  exact h

/-- There is an edge where there is a step, and it has the labels of all steps there. -/
theorem mem_edgesOf {n : Nat} {steps : Nat → List (Label × Nat)} {e : Edge n} :
    e ∈ edgesOf n steps ↔
      (∃ l, (l, e.target.1) ∈ steps e.source) ∧ labelsTo (steps e.source) e.target = e.labels := by
  obtain ⟨p, ⟨q, hq⟩, labels⟩ := e
  simp only [edgesOf, List.mem_flatMap, List.mem_filterMap, SortedSet.mem_toList,
    SortedSet.mem_ofList, List.mem_map]
  refine ⟨?_, ?_⟩
  · rintro ⟨p', -, q', ⟨s, hs, rfl⟩, he⟩
    unfold edge? at he
    split at he
    · cases he
      exact ⟨⟨s.1, hs⟩, rfl⟩
    · cases he
  · rintro ⟨⟨l, hl⟩, rfl⟩
    exact ⟨p, List.mem_finRange p, q, ⟨(l, q), hl, rfl⟩, dif_pos hq⟩

/-! ## Text -/

/-- The labels of an edge, joined by commas as they are. -/
def labelText (labels : List Label) : String := ",".intercalate (labels.map Label.text)

namespace Drawing

variable (g : Drawing)

/-- The name of a node, in quotes. -/
def node (q : Fin g.names.size) : String := quote g.names[q]

/-- The name of a node as it is. -/
def name (q : Fin g.names.size) : String := g.names[q]

theorem getElem?_names (q : Fin g.names.size) : g.names[q.1]? = some (g.name q) :=
  Array.getElem?_eq_getElem q.2

/-- The line that draws an edge. -/
def edgeLine (e : Edge g.names.size) : String :=
  "    " ++ g.node e.source ++ " -> " ++ g.node e.target ++ " [label = \"" ++ labelText e.labels ++
    "\"];"

/-- The line that announces the final nodes, if there are any. -/
def finalsLine : List String :=
  if g.finals = [] then []
  else ["    node [shape = doublecircle]; " ++ " ".intercalate (g.finals.map g.node) ++ ";"]

/-- The lines of the text. -/
def lines : List String :=
  ["digraph " ++ g.title ++ " \x7b",
    "    rankdir=LR;",
    "    __start [label = \"\", shape = none, width = 0, height = 0];"] ++
  g.finalsLine ++
  ["    node [shape = circle];"] ++
  g.names.toList.map (fun name => "    " ++ quote name ++ ";") ++
  ["    __start -> " ++ g.node g.start ++ ";"] ++
  g.edges.map g.edgeLine ++
  ["\x7d"]

/-- The drawing in the DOT language. -/
def text : String := String.join (g.lines.map (· ++ "\n"))

end Drawing

end GrammarAutomata.Dot
