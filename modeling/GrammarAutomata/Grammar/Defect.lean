import GrammarAutomata.Grammar.Basic

/-!
# Defects of a draft

Validation either finds nothing wrong with a draft, and the draft is a grammar,
or names the first defect. First comes what is wrong with the declarations, then
the productions in their order, the left-hand side before the body. It finds
nothing exactly where the draft is well formed (`Draft.defect?_eq_none_iff`).
-/

namespace GrammarAutomata

/-- What can be wrong with a draft. -/
inductive Defect where
  /-- the symbol `c` is declared both as a terminal and as a nonterminal -/
  | ambiguousSymbol (c : Char)
  /-- the start symbol `c` is not a nonterminal -/
  | startNotNonterminal (c : Char)
  /-- production number `index` replaces `c`, which is not a nonterminal -/
  | lhsNotNonterminal (index : Nat) (c : Char)
  /-- the symbol `c` in the body of production number `index` is not declared -/
  | undeclaredSymbol (index : Nat) (c : Char)
  deriving DecidableEq, Repr

/-- The wording of a defect. Symbols stand as they are between the quotes. -/
def Defect.message : Defect → String
  | .ambiguousSymbol c =>
    "Symbol '" ++ c.toString ++ "' is declared both as a terminal and as a nonterminal"
  | .startNotNonterminal c => "Start symbol '" ++ c.toString ++ "' is not a nonterminal"
  | .lhsNotNonterminal i c =>
    "Left-hand side '" ++ c.toString ++ "' of production #" ++ i.repr ++ " is not a nonterminal"
  | .undeclaredSymbol i c =>
    "Symbol '" ++ c.toString ++ "' in production #" ++ i.repr ++
      " is neither a terminal nor a nonterminal"

namespace Draft

variable (d : Draft)

/-- The least symbol that is declared twice. -/
def ambiguous? : Option Char := d.terminals.toList.find? (· ∈ d.nonterminals)

/-- The first symbol of `w` that is not declared. -/
def undeclared? (w : Word) : Option Char :=
  w.find? fun c => c ∉ d.terminals ∧ c ∉ d.nonterminals

/-- What is wrong with production number `index`. -/
def productionDefect? (p : Production) (index : Nat) : Option Defect :=
  if p.lhs ∈ d.nonterminals then
    (d.undeclared? p.body).map (.undeclaredSymbol index)
  else
    some (.lhsNotNonterminal index p.lhs)

/-- The first defect, if there is one. -/
def defect? : Option Defect :=
  match d.ambiguous? with
  | some c => some (.ambiguousSymbol c)
  | none =>
    if d.start ∈ d.nonterminals then
      d.productions.zipIdx.findSome? fun x => d.productionDefect? x.1 x.2
    else
      some (.startNotNonterminal d.start)

variable {d}

theorem ambiguous?_eq_none_iff : d.ambiguous? = none ↔ ∀ c ∈ d.terminals, c ∉ d.nonterminals := by
  simp [ambiguous?]

theorem undeclared?_eq_none_iff {w : Word} :
    d.undeclared? w = none ↔ ∀ c ∈ w, c ∈ d.terminals ∨ c ∈ d.nonterminals := by
  simp only [undeclared?, List.find?_eq_none, decide_eq_true_eq]
  exact forall₂_congr fun c _ => by
    by_cases h : c ∈ d.terminals <;> simp [h]

theorem productionDefect?_eq_none_iff {p : Production} {index : Nat} :
    d.productionDefect? p index = none ↔
      p.lhs ∈ d.nonterminals ∧ ∀ c ∈ p.body, c ∈ d.terminals ∨ c ∈ d.nonterminals := by
  unfold productionDefect?
  split
  · rename_i h
    simp [h, undeclared?_eq_none_iff]
  · rename_i h
    simp [h]

theorem defect?_eq_none_iff : d.defect? = none ↔ d.WellFormed := by
  have hprod : (d.productions.zipIdx.findSome? fun x => d.productionDefect? x.1 x.2) = none ↔
      ∀ p ∈ d.productions,
        p.lhs ∈ d.nonterminals ∧ ∀ c ∈ p.body, c ∈ d.terminals ∨ c ∈ d.nonterminals := by
    simp only [List.findSome?_eq_none_iff, productionDefect?_eq_none_iff]
    constructor
    · intro h p hp
      obtain ⟨i, hi, rfl⟩ := List.mem_iff_getElem.mp hp
      exact h (d.productions[i], i) (List.mk_mem_zipIdx_iff_getElem?.mpr (by simp))
    · intro h x hx
      exact h x.1 (List.fst_mem_of_mem_zipIdx hx)
  unfold defect?
  split
  · rename_i c hc
    refine ⟨nofun, fun h => ?_⟩
    rw [ambiguous?_eq_none_iff.mpr h.not_both] at hc
    cases hc
  · rename_i hnone
    have hboth := ambiguous?_eq_none_iff.mp hnone
    split
    · rename_i hstart
      rw [hprod]
      exact ⟨fun h => ⟨hboth, hstart, fun p hp => (h p hp).1, fun p hp => (h p hp).2⟩,
        fun h p hp => ⟨h.lhs_mem p hp, h.body_mem p hp⟩⟩
    · rename_i hstart
      exact ⟨nofun, fun h => absurd h.start_mem hstart⟩

variable (d)

/-- The grammar that the draft describes, or its first defect. -/
def validate : Except Defect Grammar :=
  match h : d.defect? with
  | some defect => .error defect
  | none => .ok ⟨d, defect?_eq_none_iff.mp h⟩

end Draft

/-- A grammar that is written down as it is passes validation. -/
theorem Grammar.validate_toDraft (g : Grammar) : g.toDraft.validate = .ok g := by
  have hnone := Draft.defect?_eq_none_iff.mpr g.wellFormed
  unfold Draft.validate
  split
  · rename_i hsome
    cases hnone.symm.trans hsome
  · rfl

end GrammarAutomata
