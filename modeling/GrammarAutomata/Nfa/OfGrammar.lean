import GrammarAutomata.Conversion
import GrammarAutomata.Nfa.Reverse

/-!
# The automaton of a linear grammar

Each nonterminal of a right-linear grammar becomes a state, and each production
an arc: from the state of its left-hand side it reads the terminals of the body
and ends in the state of the nonterminal behind them, or in the accepting state
if there is none. An arc that reads several symbols is a chain through states of
its own.

A left-linear grammar is read from right to left. Its productions, with their
bodies read backwards, are right-linear; the automaton of those is reversed.
-/

namespace GrammarAutomata

/-! ## Arcs -/

/-- The way an automaton goes for one production. -/
structure Arc where
  /-- the nonterminal in whose state it begins -/
  source : Char
  /-- the terminals that are read -/
  word : Word
  /-- the nonterminal in whose state it ends; `none` is the accepting state -/
  target : Option Char
  deriving DecidableEq, Repr

/-- The side on which a linear grammar may have its nonterminals. -/
inductive Direction where
  /-- at the end of a body: bodies are read as they stand -/
  | right
  /-- at the beginning: bodies are read backwards -/
  | left
  deriving DecidableEq, Repr

/-- The production as it is read. -/
def Direction.read : Direction → Production → Production
  | .right, p => p
  | .left, p => p.reversed

namespace Grammar

variable (g : Grammar)

/-- A production whose body ends in `last`, taken apart into the word it reads
and the nonterminal behind that word. -/
def arcUpTo (p : Production) (last : Char) : Arc :=
  if last ∈ g.nonterminals then ⟨p.lhs, p.body.dropLast, some last⟩ else ⟨p.lhs, p.body, none⟩

/-- The arc of a production, or the reason why it has none. -/
def arc (units : UnitProductions) (p : Production) : Except ArcError Arc :=
  match p.body.getLast? with
  | none => .error .emptyBody
  | some last =>
    let arc := g.arcUpTo p last
    match arc.word.find? (· ∈ g.nonterminals) with
    | some c => .error (.misplacedNonterminal c)
    | none =>
      if arc.word = [] ∧ units = .reject then .error (.unitProduction last) else .ok arc

/-- The arcs of all productions, in order, or what is wrong with the first that
has none. An error shows the production as it stands in the grammar. -/
def arcs (units : UnitProductions) (direction : Direction) : Except Error (List Arc) :=
  g.productions.zipIdx.mapM fun x =>
    (g.arc units (direction.read x.1)).mapError (.malformedProduction x.2 x.1)

/-! ## Numbers of states -/

/-- The nonterminals in the order of their states: the start symbol first, the
others ascending. -/
def stateOrder : List Char := g.start :: g.nonterminals.toList.filter (· ≠ g.start)

/-- The accepting state. It follows the states of the nonterminals. -/
def acceptState : Nat := g.stateOrder.length

/-- The state of a nonterminal, or the accepting state. -/
def stateOf : Option Char → Nat
  | some a => g.stateOrder.idxOf a
  | none => g.acceptState

variable {g}

theorem stateOf_le (a : Option Char) : g.stateOf a ≤ g.acceptState := by
  cases a with
  | none => exact Nat.le_refl _
  | some a => exact List.idxOf_le_length

end Grammar

/-! ## Chains -/

/-- The transitions from `source` to `target` that read `word`. States in between
are numbered from `next` on. -/
def chain (next source : Nat) : Word → Nat → List Transition
  | [], target => [⟨source, .epsilon, target⟩]
  | [c], target => [⟨source, .symbol c, target⟩]
  | c :: d :: word, target => ⟨source, .symbol c, next⟩ :: chain (next + 1) next (d :: word) target

/-- How many states of its own an arc passes through. -/
def Arc.inner (arc : Arc) : Nat := arc.word.length - 1

/-- How many states all arcs pass through. -/
def innerStates : List Arc → Nat
  | [] => 0
  | arc :: arcs => arc.inner + innerStates arcs

/-- The chains of several arcs. No two pass through the same state. -/
def chains (g : Grammar) (next : Nat) : List Arc → List Transition
  | [] => []
  | arc :: arcs =>
    chain next (g.stateOf arc.source) arc.word (g.stateOf arc.target) ++
      chains g (next + arc.inner) arcs

theorem chain_lt {next source target bound : Nat} {word : Word} (hs : source < bound)
    (ht : target < bound) (hb : next + (word.length - 1) ≤ bound) :
    ∀ t ∈ chain next source word target, t.source < bound ∧ t.target < bound := by
  fun_induction chain next source word target with
  | case1 => simp [hs, ht]
  | case2 => simp [hs, ht]
  | case3 next source c d word target ih =>
    simp only [List.length_cons] at hb ih
    intro t hmem
    rcases List.mem_cons.mp hmem with rfl | hmem
    · exact ⟨hs, show next < bound by omega⟩
    · exact ih (by omega) ht (by omega) t hmem

theorem chains_lt {g : Grammar} {next bound : Nat} {arcs : List Arc} (ha : g.acceptState < bound)
    (hb : next + innerStates arcs ≤ bound) :
    ∀ t ∈ chains g next arcs, t.source < bound ∧ t.target < bound := by
  induction arcs generalizing next with
  | nil => exact fun t h => absurd h List.not_mem_nil
  | cons arc arcs ih =>
    rw [innerStates] at hb
    intro t hmem
    rcases List.mem_append.mp hmem with hmem | hmem
    · exact chain_lt (Nat.lt_of_le_of_lt (Grammar.stateOf_le _) ha)
        (Nat.lt_of_le_of_lt (Grammar.stateOf_le _) ha) (by unfold Arc.inner at hb; omega) t hmem
    · exact ih (by omega) t hmem

/-! ## The automaton -/

namespace Nfa

/-- The kinds of the states of a grammar: its nonterminals, the accepting state
and those that chains pass through. -/
def kindsOf (g : Grammar) (arcs : List Arc) : List StateKind :=
  g.stateOrder.map .nonterminal ++ .accept :: List.replicate (innerStates arcs) .intermediate

theorem length_kindsOf (g : Grammar) (arcs : List Arc) :
    (kindsOf g arcs).length = g.acceptState + 1 + innerStates arcs := by
  simp only [kindsOf, List.length_append, List.length_map, List.length_cons,
    List.length_replicate, Grammar.acceptState]
  omega

/-- The automaton that goes the arcs of a grammar from the state of the start
symbol to the accepting state. -/
def ofArcs (g : Grammar) (arcs : List Arc) : Nfa :=
  ofTransitions (kindsOf g arcs) g.terminals 0 {g.acceptState} (chains g (g.acceptState + 1) arcs)
    (by rw [length_kindsOf]; omega)
    (fun q hq => by
      obtain rfl := SortedSet.mem_singleton.mp hq
      rw [length_kindsOf]; omega)
    (by rw [length_kindsOf]; exact chains_lt (by omega) (Nat.le_refl _))

/-- The automaton of a linear grammar. -/
def ofGrammar (g : Grammar) (options : Options) : Except Error Nfa :=
  match g.classify with
  | .regular | .rightLinear => (g.arcs options.unitProductions .right).map (ofArcs g)
  | .leftLinear => (g.arcs options.unitProductions .left).map fun arcs => (ofArcs g arcs).reverse
  | grammarClass => .error (.unsupportedClass grammarClass)

end Nfa

end GrammarAutomata
