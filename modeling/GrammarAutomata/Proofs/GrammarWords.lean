import GrammarAutomata.Grammar.Words
import GrammarAutomata.Proofs.Leftmost

/-!
# What the search for words finds

The search finds forms that are derived, within the bound (`Grammar.forms_sound`).
Conversely, wherever it has found a form, it also finds each word within the bound
that the form yields from left to right: on the way there no form is longer than
the word (`Grammar.forms_complete`).
-/

namespace GrammarAutomata.Grammar

variable {g : Grammar} {n : Nat}

/-- The productions that replace a symbol by something. -/
def nonemptyProductions (g : Grammar) : List Production := g.productions.filter (·.body ≠ [])

theorem mem_nonemptyProductions {p : Production} :
    p ∈ g.nonemptyProductions ↔ p ∈ g.productions ∧ p.body ≠ [] := by
  simp [nonemptyProductions]

theorem mem_words {w : Word} : w ∈ g.words n ↔ w ∈ g.formsFound n ∧ g.AllTerminal w := by
  rw [words, SortedSet.mem_ofList, List.mem_filter, Numbering.mem_toList, decide_eq_true_iff]

/-- An expansion is a step of a derivation. -/
theorem derivesStep_of_mem_expansions {form next : Word} (h : next ∈ g.expansions form) :
    DerivesStep g.nonemptyProductions form next := by
  obtain ⟨settled, a, rest, body, rfl, _, _, hbody, rfl⟩ := mem_expansions.mp h
  obtain ⟨hne, hp⟩ := mem_bodies.mp hbody
  rw [← List.append_assoc]
  exact .intro (p := ⟨a, body⟩) (mem_nonemptyProductions.mpr ⟨hp, hne⟩) settled rest

/-- Everything found is derived, and within the bound but for the start form. -/
theorem forms_sound : ∀ form ∈ g.formsFound n,
    Derives g.nonemptyProductions [g.start] form ∧ (form = [g.start] ∨ form.length ≤ n) := by
  refine Space.explore_induction _ (fun form hform => ?_) (fun form next h hnext => ?_)
  · obtain rfl := List.mem_singleton.mp hform
    exact ⟨.refl _, .inl rfl⟩
  · obtain ⟨hnext, hlen⟩ := List.mem_filter.mp hnext
    exact ⟨h.1.tail (derivesStep_of_mem_expansions hnext), .inr (of_decide_eq_true hlen)⟩

/-- The search goes on from a form to its expansions within the bound. -/
theorem mem_formsFound_of_mem_expansions {form next : Word} (h : form ∈ g.formsFound n)
    (hnext : next ∈ g.expansions form) (hlen : next.length ≤ n) : next ∈ g.formsFound n :=
  Space.explore_closed _ h (List.mem_filter.mpr ⟨hnext, decide_eq_true hlen⟩)

/-- From a form that has been found the search goes on to all words within the
bound that the form yields. What stands before its first nonterminal is settled and
never looked at again. -/
theorem forms_complete {settled u w : Word}
    (h : Yields g.nonemptyProductions (· ∉ g.nonterminals) u w)
    (hsettled : ∀ c ∈ settled, c ∉ g.nonterminals) (hlen : (settled ++ w).length ≤ n)
    (hfound : settled ++ u ∈ g.formsFound n) : settled ++ w ∈ g.formsFound n := by
  induction h generalizing settled with
  | nil => exact hfound
  | @keep c u w hc _ ih =>
    rw [List.append_cons] at hlen hfound ⊢
    refine ih (fun d hd => ?_) hlen hfound
    rcases List.mem_append.mp hd with hd | hd
    · exact hsettled d hd
    · exact List.mem_singleton.mp hd ▸ hc
  | @replace p u w hp h ih =>
    obtain ⟨hp, hne⟩ := mem_nonemptyProductions.mp hp
    refine ih hsettled hlen (mem_formsFound_of_mem_expansions hfound ?_ ?_)
    · exact mem_expansions.mpr ⟨settled, p.lhs, u, p.body, rfl, hsettled,
        g.wellFormed.lhs_mem p hp, mem_bodies.mpr ⟨hne, hp⟩, rfl⟩
    · -- the form is no longer than the word it yields
      have hle := h.length_le fun q hq => (mem_nonemptyProductions.mp hq).2
      rw [List.length_append] at hlen ⊢
      omega

theorem mem_words_iff {w : Word} : w ∈ g.words n ↔
    w.length ≤ n ∧ g.AllTerminal w ∧ Derives g.nonemptyProductions [g.start] w := by
  rw [mem_words]
  refine ⟨?_, ?_⟩
  · rintro ⟨hfound, hw⟩
    obtain ⟨hderives, rfl | hlen⟩ := forms_sound w hfound
    · -- the start form is exempt from the bound, but it is no word
      exact absurd g.wellFormed.start_mem
        (not_mem_nonterminals_of_allTerminal hw g.start List.mem_cons_self)
    · exact ⟨hlen, hw, hderives⟩
  · rintro ⟨hlen, hw, hderives⟩
    have hyields := yields_of_derives hderives (not_mem_nonterminals_of_allTerminal hw)
    have hstart : [g.start] ∈ g.formsFound n := Space.mem_explore_of_mem _ List.mem_cons_self
    exact ⟨@forms_complete g n [] _ _ hyields nofun hlen hstart, hw⟩

/-- **The words up to a length.** The search for them, taken as a loop, ends after
at most as many rounds as there are forms within the bound, and it leaves exactly
the terminal words of at most `n` letters that are derived, in whatever order, by
the productions whose body is not empty. -/
theorem words_are_derived (g : Grammar) (n : Nat) :
    (∃ rounds found, rounds ≤ Nat.pow (g.symbols.length + 1) (max n 1) ∧
      Space.Rounds (g.forms n).succ (Numbering.empty.addAll [[g.start]]) 0 rounds found ∧
      g.words n = .ofList (found.toList.filter g.AllTerminal)) ∧
    ∀ w, w ∈ g.words n ↔ w.length ≤ n ∧ (∀ c ∈ w, c ∈ g.terminals) ∧
      Derives (g.productions.filter (·.body ≠ [])) [g.start] w := by
  obtain ⟨rounds, hle, hrounds⟩ := Space.rounds_explore (g.mem_forms_start n)
  exact ⟨⟨rounds, _, hle, hrounds, rfl⟩, fun w => mem_words_iff⟩

end GrammarAutomata.Grammar
