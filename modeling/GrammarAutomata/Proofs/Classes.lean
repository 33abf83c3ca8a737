import GrammarAutomata.Grammar.Defect
import GrammarAutomata.Proofs.LinearBodies

/-!
# Classes by the shapes of bodies

The class of a grammar is a verdict on all its bodies together. A body that is linear in both
directions is a word of terminals or a nonterminal alone (`Grammar.regularBody_iff`), so
the four classes that occur are told by which shapes all bodies have
(`Grammar.class_by_bodies`). Read backwards, a grammar is of the class read backwards.
-/

namespace GrammarAutomata

/-- The class of what is read backwards: left and right change places. -/
def GrammarClass.reversed : GrammarClass → GrammarClass
  | .regular => .regular
  | .rightLinear => .leftLinear
  | .leftLinear => .rightLinear
  | .contextFree => .contextFree
  | .unrecognized => .unrecognized

namespace Grammar

variable {g : Grammar} {body : Word}

/-- The body is a word of terminals, or a nonterminal alone. -/
def RegularBody (g : Grammar) (body : Word) : Prop :=
  g.AllTerminal body ∨ ∃ a ∈ g.nonterminals, body = [a]

theorem RegularBody.rightLinearBody (h : g.RegularBody body) : g.RightLinearBody body := by
  rcases h with h | ⟨a, ha, rfl⟩
  · exact ⟨body, none, (List.append_nil body).symm, h, nofun⟩
  · exact ⟨[], some a, rfl, nofun, fun b hb => Option.mem_some_iff.mp hb ▸ ha⟩

theorem RegularBody.leftLinearBody (h : g.RegularBody body) : g.LeftLinearBody body := by
  rcases h with h | ⟨a, ha, rfl⟩
  · exact ⟨none, body, rfl, h, nofun⟩
  · exact ⟨some a, [], rfl, nofun, fun b hb => Option.mem_some_iff.mp hb ▸ ha⟩

/-- What is linear in both directions has no nonterminal beside a terminal. -/
theorem regularBody_iff : g.RegularBody body ↔ g.RightLinearBody body ∧ g.LeftLinearBody body := by
  refine ⟨fun h => ⟨h.rightLinearBody, h.leftLinearBody⟩, ?_⟩
  rintro ⟨⟨u, b, hright, hu, hb⟩, b', u', hleft, hu', hb'⟩
  cases b with
  | none =>
    rw [Option.toList_none, List.append_nil] at hright
    exact .inl (hright ▸ hu)
  | some a =>
    cases b' with
    | none => exact .inl (hleft ▸ hu')
    | some a' =>
      cases u with
      | nil => exact .inr ⟨a, hb a rfl, hright⟩
      | cons c u =>
        -- the first symbol would be both a terminal and a nonterminal
        rw [hleft, Option.toList_some, List.singleton_append, List.cons_append] at hright
        obtain ⟨rfl, _⟩ := List.cons.inj hright
        exact absurd (hb' a' rfl) (g.wellFormed.not_both a' (hu a' List.mem_cons_self))

theorem isRightLinear_and_isLeftLinear_iff :
    g.IsRightLinear ∧ g.IsLeftLinear ↔ ∀ p ∈ g.productions, g.RegularBody p.body := by
  rw [isRightLinear_iff, isLeftLinear_iff]
  refine ⟨fun h p hp => regularBody_iff.mpr ⟨h.1 p hp, h.2 p hp⟩, fun h => ?_⟩
  exact ⟨fun p hp => (h p hp).rightLinearBody, fun p hp => (h p hp).leftLinearBody⟩

/-- The class tells in which directions the grammar is linear, and nothing more. -/
theorem classify_cases (g : Grammar) :
    ((g.IsRightLinear ∧ g.IsLeftLinear) ∧ g.classify = .regular) ∨
    ((g.IsRightLinear ∧ ¬ g.IsLeftLinear) ∧ g.classify = .rightLinear) ∨
    ((¬ g.IsRightLinear ∧ g.IsLeftLinear) ∧ g.classify = .leftLinear) ∨
    ((¬ g.IsRightLinear ∧ ¬ g.IsLeftLinear) ∧ g.classify = .contextFree) := by
  by_cases hright : g.IsRightLinear <;> by_cases hleft : g.IsLeftLinear
  · exact .inl ⟨⟨hright, hleft⟩, by rw [classify, if_pos hright, if_pos hleft]⟩
  · exact .inr (.inl ⟨⟨hright, hleft⟩, by rw [classify, if_pos hright, if_neg hleft]⟩)
  · exact .inr (.inr (.inl ⟨⟨hright, hleft⟩, classify_of_isLeftLinear hright hleft⟩))
  · exact .inr (.inr (.inr ⟨⟨hright, hleft⟩,
      classify_of_not_isRegular (not_or.mpr ⟨hright, hleft⟩)⟩))

theorem classify_eq_regular_iff : g.classify = .regular ↔ g.IsRightLinear ∧ g.IsLeftLinear := by
  rcases classify_cases g with ⟨h, hc⟩ | ⟨h, hc⟩ | ⟨h, hc⟩ | ⟨h, hc⟩ <;> simp [h, hc]

theorem classify_eq_rightLinear_iff :
    g.classify = .rightLinear ↔ g.IsRightLinear ∧ ¬ g.IsLeftLinear := by
  rcases classify_cases g with ⟨h, hc⟩ | ⟨h, hc⟩ | ⟨h, hc⟩ | ⟨h, hc⟩ <;> simp [h, hc]

theorem classify_eq_leftLinear_iff :
    g.classify = .leftLinear ↔ ¬ g.IsRightLinear ∧ g.IsLeftLinear := by
  rcases classify_cases g with ⟨h, hc⟩ | ⟨h, hc⟩ | ⟨h, hc⟩ | ⟨h, hc⟩ <;> simp [h, hc]

theorem classify_eq_contextFree_iff : g.classify = .contextFree ↔ ¬ g.IsRegular := by
  rw [IsRegular, not_or]
  rcases classify_cases g with ⟨h, hc⟩ | ⟨h, hc⟩ | ⟨h, hc⟩ | ⟨h, hc⟩ <;> simp [h, hc]

theorem classify_ne_unrecognized (g : Grammar) : g.classify ≠ .unrecognized := by
  rcases classify_cases g with ⟨_, hc⟩ | ⟨_, hc⟩ | ⟨_, hc⟩ | ⟨_, hc⟩ <;> simp [hc]

theorem isRegular_classify_iff : g.classify.IsRegular ↔ g.IsRegular := by
  rw [IsRegular]
  rcases classify_cases g with ⟨h, hc⟩ | ⟨h, hc⟩ | ⟨h, hc⟩ | ⟨h, hc⟩ <;>
    simp [h, hc, GrammarClass.IsRegular]

theorem isLeftLinear_reversed_iff : g.reversed.IsLeftLinear ↔ g.IsRightLinear := by
  rw [← isRightLinear_reversed_iff, reversed_reversed]

theorem classify_reversed (g : Grammar) : g.reversed.classify = g.classify.reversed := by
  have hright : g.reversed.IsRightLinear ↔ g.IsLeftLinear := isRightLinear_reversed_iff
  have hleft : g.reversed.IsLeftLinear ↔ g.IsRightLinear := isLeftLinear_reversed_iff
  rcases classify_cases g with ⟨h, hc⟩ | ⟨h, hc⟩ | ⟨h, hc⟩ | ⟨h, hc⟩ <;> rw [hc]
  · exact classify_eq_regular_iff.mpr ⟨hright.mpr h.2, hleft.mpr h.1⟩
  · exact classify_eq_leftLinear_iff.mpr ⟨mt hright.mp h.2, hleft.mpr h.1⟩
  · exact classify_eq_rightLinear_iff.mpr ⟨hright.mpr h.2, mt hleft.mp h.1⟩
  · exact classify_eq_contextFree_iff.mpr (not_or.mpr ⟨mt hright.mp h.2, mt hleft.mp h.1⟩)

/-- **The class of a grammar is told by the shapes of its bodies.** It is regular if all bodies
are words of terminals or nonterminals alone; if not, it is linear in the direction in which
all bodies are; and it is context-free where there is no such direction, above all where
bodies are linear in different ones. Nothing is unrecognized. Read backwards, left and right
change places; and being regular is the same of the class and of the grammar. -/
theorem class_by_bodies (g : Grammar) :
    (g.classify = .regular ↔ ∀ p ∈ g.productions, g.RegularBody p.body) ∧
    (g.classify = .rightLinear ↔ (¬ ∀ p ∈ g.productions, g.RegularBody p.body) ∧
      ∀ p ∈ g.productions, g.RightLinearBody p.body) ∧
    (g.classify = .leftLinear ↔ (¬ ∀ p ∈ g.productions, g.RegularBody p.body) ∧
      ∀ p ∈ g.productions, g.LeftLinearBody p.body) ∧
    (g.classify = .contextFree ↔ (¬ ∀ p ∈ g.productions, g.RightLinearBody p.body) ∧
      ¬ ∀ p ∈ g.productions, g.LeftLinearBody p.body) ∧
    (∀ p ∈ g.productions, ∀ q ∈ g.productions, ¬ g.LeftLinearBody p.body →
      ¬ g.RightLinearBody q.body → g.classify = .contextFree) ∧
    g.classify ≠ .unrecognized ∧
    g.reversed.classify = g.classify.reversed ∧
    (g.classify.IsRegular ↔ g.IsRegular) := by
  simp only [← isRightLinear_and_isLeftLinear_iff, ← isRightLinear_iff, ← isLeftLinear_iff]
  refine ⟨classify_eq_regular_iff, ?_, ?_, ?_, ?_, classify_ne_unrecognized g, classify_reversed g,
    isRegular_classify_iff⟩
  · rw [classify_eq_rightLinear_iff]
    exact ⟨fun h => ⟨fun h' => h.2 h'.2, h.1⟩, fun h => ⟨h.2, fun h' => h.1 ⟨h.2, h'⟩⟩⟩
  · rw [classify_eq_leftLinear_iff]
    exact ⟨fun h => ⟨fun h' => h.1 h'.1, h.2⟩, fun h => ⟨fun h' => h.1 ⟨h', h.2⟩, h.2⟩⟩
  · rw [classify_eq_contextFree_iff, IsRegular, not_or]
  · intro p hp q hq hnotLeft hnotRight
    refine classify_eq_contextFree_iff.mpr (not_or.mpr ⟨fun h => ?_, fun h => ?_⟩)
    · exact hnotRight (isRightLinear_iff.mp h q hq)
    · exact hnotLeft (isLeftLinear_iff.mp h p hp)

/-- A grammar in which each body is linear, but not all in the same direction. -/
def mixedSample : Grammar where
  nonterminals := {'A', 'S'}
  terminals := {'a', 'b'}
  start := 'S'
  productions := [⟨'S', ['a', 'A']⟩, ⟨'A', ['A', 'b']⟩, ⟨'A', []⟩, ⟨'S', ['A']⟩]
  wellFormed := Draft.defect?_eq_none_iff.mp (by decide)

/-- It is context-free, read backwards too. -/
theorem class_by_bodies_mixedSample :
    mixedSample.classify = .contextFree ∧ mixedSample.reversed.classify = .contextFree := by
  obtain ⟨_, _, _, _, hmixed, _, hreversed, _⟩ := class_by_bodies mixedSample
  have hclass : mixedSample.classify = .contextFree := by
    refine hmixed ⟨'S', ['a', 'A']⟩ (by decide) ⟨'A', ['A', 'b']⟩ (by decide) ?_ ?_
    · intro h
      exact absurd ((rightLinearBody_reverse_iff.mpr h).allTerminal_dropLast 'A' (by decide))
        (by decide)
    · intro h
      exact absurd (h.allTerminal_dropLast 'A' (by decide)) (by decide)
  exact ⟨hclass, by rw [hreversed, hclass]; rfl⟩

end Grammar

end GrammarAutomata
