import GrammarAutomata.Grammar.Classification

/-!
# The bodies of linear grammars

What linearity says of each body, with nothing cut off it: in a right-linear grammar
a body is a word of terminals and perhaps a nonterminal behind it, in a left-linear
one a word of terminals and perhaps a nonterminal before it. The classification
tests exactly this (`Grammar.isRightLinear_iff`, `Grammar.isLeftLinear_iff`).
-/

namespace GrammarAutomata.Grammar

variable (g : Grammar)

/-- The body is a word of terminals, and perhaps a nonterminal behind it. -/
def RightLinearBody (body : Word) : Prop :=
  ∃ (u : Word) (b : Option Char), body = u ++ b.toList ∧ g.AllTerminal u ∧
    ∀ a ∈ b, a ∈ g.nonterminals

/-- The body is a word of terminals, and perhaps a nonterminal before it. -/
def LeftLinearBody (body : Word) : Prop :=
  ∃ (b : Option Char) (u : Word), body = b.toList ++ u ∧ g.AllTerminal u ∧
    ∀ a ∈ b, a ∈ g.nonterminals

/-- All bodies have their nonterminals on the same side. -/
def Linear : Prop :=
  (∀ p ∈ g.productions, g.RightLinearBody p.body) ∨ ∀ p ∈ g.productions, g.LeftLinearBody p.body

variable {g} {body : Word}

/-! ## One body -/

theorem RightLinearBody.allTerminal_dropLast (h : g.RightLinearBody body) :
    g.AllTerminal body.dropLast := by
  obtain ⟨u, b, rfl, hu, _⟩ := h
  cases b with
  | none =>
    rw [Option.toList_none, List.append_nil]
    exact fun c hc => hu c ((List.dropLast_sublist u).subset hc)
  | some a =>
    rw [Option.toList_some, List.dropLast_concat]
    exact hu

/-- Of declared symbols the last is a terminal or a nonterminal. -/
theorem rightLinearBody_of_dropLast (hbody : ∀ c ∈ body, c ∈ g.terminals ∨ c ∈ g.nonterminals)
    (h : g.AllTerminal body.dropLast) : g.RightLinearBody body := by
  rcases List.eq_nil_or_concat body with rfl | ⟨u, a, rfl⟩
  · exact ⟨[], none, rfl, nofun, nofun⟩
  · rw [List.concat_eq_append] at hbody h ⊢
    rw [List.dropLast_concat] at h
    rcases hbody a (List.mem_append_right _ List.mem_cons_self) with ha | ha
    · refine ⟨u ++ [a], none, (List.append_nil _).symm, fun c hc => ?_, nofun⟩
      rcases List.mem_append.mp hc with hc | hc
      · exact h c hc
      · exact List.mem_singleton.mp hc ▸ ha
    · exact ⟨u, some a, rfl, h, fun c hc => Option.mem_some_iff.mp hc ▸ ha⟩

/-- Read backwards, what stands before a word stands behind it. -/
theorem rightLinearBody_reverse_iff : g.RightLinearBody body.reverse ↔ g.LeftLinearBody body := by
  have hsingle (b : Option Char) : b.toList.reverse = b.toList := by cases b <;> rfl
  refine ⟨?_, ?_⟩
  · rintro ⟨u, b, hbody, hu, hb⟩
    refine ⟨b, u.reverse, ?_, allTerminal_reverse_iff.mpr hu, hb⟩
    rw [← List.reverse_reverse body, hbody, List.reverse_append, hsingle]
  · rintro ⟨b, u, rfl, hu, hb⟩
    exact ⟨u.reverse, b, by rw [List.reverse_append, hsingle], allTerminal_reverse_iff.mpr hu, hb⟩

/-! ## All bodies -/

/-- Only nonterminals are replaced: that much holds of every grammar. -/
theorem isContextFree (g : Grammar) : g.IsContextFree := g.wellFormed.lhs_mem

theorem isRightLinear_iff :
    g.IsRightLinear ↔ ∀ p ∈ g.productions, g.RightLinearBody p.body := by
  refine ⟨?_, ?_⟩
  · intro h p hp
    exact rightLinearBody_of_dropLast (g.wellFormed.body_mem p hp) (h.2 p hp)
  · intro h
    exact ⟨g.isContextFree, fun p hp => (h p hp).allTerminal_dropLast⟩

/-- The grammar is left-linear if and only if it is right-linear when it is read
backwards. -/
theorem isRightLinear_reversed_iff : g.reversed.IsRightLinear ↔ g.IsLeftLinear := by
  have hbody (p : Production) : g.AllTerminal p.reversed.body.dropLast ↔
      g.AllTerminal p.body.tail := by
    rw [Production.reversed, List.dropLast_reverse, allTerminal_reverse_iff]
  refine and_congr (iff_of_true g.reversed.isContextFree g.isContextFree) ?_
  refine List.forall_mem_map.trans (forall₂_congr fun p _ => hbody p)

theorem isLeftLinear_iff :
    g.IsLeftLinear ↔ ∀ p ∈ g.productions, g.LeftLinearBody p.body := by
  rw [← isRightLinear_reversed_iff, isRightLinear_iff]
  exact List.forall_mem_map.trans (forall₂_congr fun p _ => rightLinearBody_reverse_iff)

theorem isRegular_iff : g.IsRegular ↔ g.Linear := or_congr isRightLinear_iff isLeftLinear_iff

/-! ## Classes -/

theorem classify_of_isRightLinear (h : g.IsRightLinear) :
    g.classify = .regular ∨ g.classify = .rightLinear := by
  rw [classify, if_pos h]
  split
  · exact .inl rfl
  · exact .inr rfl

theorem classify_of_isLeftLinear (hnot : ¬ g.IsRightLinear) (h : g.IsLeftLinear) :
    g.classify = .leftLinear := by
  rw [classify, if_neg hnot, if_pos h]

/-- What is not linear is context-free; nothing is unrecognized. -/
theorem classify_of_not_isRegular (h : ¬ g.IsRegular) : g.classify = .contextFree := by
  obtain ⟨hright, hleft⟩ := not_or.mp h
  rw [classify, if_neg hright, if_neg hleft, if_pos g.isContextFree]

end GrammarAutomata.Grammar
