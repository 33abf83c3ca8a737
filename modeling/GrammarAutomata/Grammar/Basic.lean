import GrammarAutomata.SortedSet
import GrammarAutomata.Word

/-!
# Grammars

A grammar replaces nonterminals by the bodies of its productions until only
terminals are left. As written down it is a `Draft`: two sets of symbols, a start
symbol and a list of productions, in which anything may be wrong. A `Grammar` is
a draft whose symbols fit together (`Draft.WellFormed`); everything after
validation speaks of grammars only.
-/

namespace GrammarAutomata

/-- A rule that lets the nonterminal `lhs` be replaced by `body`. -/
structure Production where
  /-- the symbol to be replaced -/
  lhs : Char
  /-- what replaces it, possibly nothing -/
  body : Word
  deriving DecidableEq, Repr

namespace Production

/-- The production with its body read backwards. -/
def reversed (p : Production) : Production := ⟨p.lhs, p.body.reverse⟩

@[simp] theorem reversed_reversed (p : Production) : p.reversed.reversed = p := by
  simp [reversed]

/-- Written as in `S -> aA`; an empty body is written `ε`. -/
def text (p : Production) : String :=
  p.lhs.toString ++ " -> " ++ if p.body.isEmpty then "ε" else String.ofList p.body

end Production

/-- A grammar as it is written down, before anything is checked. -/
structure Draft where
  /-- the symbols that productions replace -/
  nonterminals : SortedSet Char
  /-- the symbols that words consist of -/
  terminals : SortedSet Char
  /-- the symbol that every derivation begins with -/
  start : Char
  /-- the productions, in the order in which they are numbered -/
  productions : List Production
  deriving DecidableEq

namespace Draft

/-- Every symbol that occurs is declared, exactly once, and as what it is used
for. -/
structure WellFormed (d : Draft) : Prop where
  /-- no symbol is both a terminal and a nonterminal -/
  not_both : ∀ c ∈ d.terminals, c ∉ d.nonterminals
  /-- derivations begin with a nonterminal -/
  start_mem : d.start ∈ d.nonterminals
  /-- only nonterminals are replaced -/
  lhs_mem : ∀ p ∈ d.productions, p.lhs ∈ d.nonterminals
  /-- bodies hold declared symbols only -/
  body_mem : ∀ p ∈ d.productions, ∀ c ∈ p.body, c ∈ d.terminals ∨ c ∈ d.nonterminals

/-- The draft with all bodies read backwards. -/
def reversed (d : Draft) : Draft := { d with productions := d.productions.map Production.reversed }

@[simp] theorem reversed_reversed (d : Draft) : d.reversed.reversed = d := by
  simp [reversed, Function.comp_def]

theorem WellFormed.reversed {d : Draft} (h : d.WellFormed) : d.reversed.WellFormed where
  not_both := h.not_both
  start_mem := h.start_mem
  lhs_mem p hp := by
    obtain ⟨q, hq, rfl⟩ := List.mem_map.mp hp
    exact h.lhs_mem q hq
  body_mem p hp c hc := by
    obtain ⟨q, hq, rfl⟩ := List.mem_map.mp hp
    exact h.body_mem q hq c (List.mem_reverse.mp hc)

end Draft

/-- A grammar whose symbols fit together. -/
structure Grammar extends Draft where
  /-- what validation has established -/
  wellFormed : toDraft.WellFormed
  deriving DecidableEq

namespace Grammar

/-- All symbols of `w` are terminals. -/
def AllTerminal (g : Grammar) (w : Word) : Prop := ∀ c ∈ w, c ∈ g.terminals

/-- It is decided by going through the word, not through all characters. -/
instance (g : Grammar) (w : Word) : Decidable (g.AllTerminal w) :=
  List.decidableBAll (· ∈ g.terminals) w

theorem allTerminal_reverse_iff {g : Grammar} {w : Word} :
    g.AllTerminal w.reverse ↔ g.AllTerminal w :=
  forall_congr' fun _ => imp_congr_left List.mem_reverse

/-- A terminal is not a nonterminal. -/
theorem not_mem_nonterminals_of_allTerminal {g : Grammar} {w : Word} (hw : g.AllTerminal w) :
    ∀ c ∈ w, c ∉ g.nonterminals := fun c hc => g.wellFormed.not_both c (hw c hc)

/-- The grammar with all bodies read backwards. It generates the words of `g`
read backwards. -/
def reversed (g : Grammar) : Grammar := ⟨g.toDraft.reversed, g.wellFormed.reversed⟩

@[simp] theorem reversed_reversed (g : Grammar) : g.reversed.reversed = g := by
  simp [reversed]

/-- The start symbol and the productions, one to a line. -/
def text (g : Grammar) : String :=
  "start: " ++ g.start.toString ++ "\n" ++ String.join (g.productions.map (·.text ++ "\n"))

end Grammar

end GrammarAutomata
