import GrammarAutomata.Grammar.Basic
import GrammarAutomata.Search

/-!
# The words of a grammar, up to a length

Productions with an empty body are left out, so a derivation never gets shorter
and a form longer than the bound leads to no word within it. The search
therefore keeps to forms within the bound, always replacing the leftmost
nonterminal, and the words are the forms it finds that hold terminals only.
-/

namespace GrammarAutomata.Grammar

variable (g : Grammar)

/-- All declared symbols. -/
def symbols : List Char := g.nonterminals.toList ++ g.terminals.toList

/-- The bodies that may replace `a`, the empty one left out. -/
def bodies (a : Char) : List Word :=
  (g.productions.filter fun p => p.lhs = a ∧ p.body ≠ []).map (·.body)

/-- The forms that come from replacing the leftmost nonterminal. -/
def expansions (form : Word) : List Word :=
  let settled := form.takeWhile (· ∉ g.nonterminals)
  match form.dropWhile (· ∉ g.nonterminals) with
  | [] => []
  | a :: rest => (g.bodies a).map fun body => settled ++ (body ++ rest)

variable {g}

theorem mem_bodies {a : Char} {body : Word} :
    body ∈ g.bodies a ↔ body ≠ [] ∧ ⟨a, body⟩ ∈ g.productions := by
  simp only [bodies, List.mem_map, List.mem_filter, decide_eq_true_eq]
  constructor
  · rintro ⟨p, ⟨hp, rfl, hne⟩, rfl⟩
    exact ⟨hne, hp⟩
  · rintro ⟨hne, hp⟩
    exact ⟨_, ⟨hp, rfl, hne⟩, rfl⟩

/-- An expansion replaces one nonterminal, behind which nothing changes, and
before which there are no others. -/
theorem mem_expansions {form next : Word} :
    next ∈ g.expansions form ↔ ∃ settled a rest body, form = settled ++ a :: rest ∧
      (∀ c ∈ settled, c ∉ g.nonterminals) ∧ a ∈ g.nonterminals ∧ body ∈ g.bodies a ∧
      next = settled ++ (body ++ rest) := by
  have hsplit := List.takeWhile_append_dropWhile
    (p := fun c => decide (c ∉ g.nonterminals)) (l := form)
  unfold expansions
  constructor
  · intro h
    split at h
    · exact absurd h List.not_mem_nil
    · rename_i a rest hdrop
      obtain ⟨body, hbody, rfl⟩ := List.mem_map.mp h
      rw [hdrop] at hsplit
      refine ⟨_, a, rest, body, hsplit.symm, fun c hc => ?_, ?_, hbody, rfl⟩
      · simpa using List.all_eq_true.mp List.all_takeWhile c hc
      · have := List.head?_dropWhile_not (fun c => decide (c ∉ g.nonterminals)) form
        rw [hdrop] at this
        simpa using this
  · rintro ⟨settled, a, rest, body, rfl, hset, ha, hbody, rfl⟩
    have htake : (settled ++ a :: rest).takeWhile (fun c => decide (c ∉ g.nonterminals)) =
        settled := by
      rw [List.takeWhile_append_of_pos (by simpa using hset), List.takeWhile_cons_of_neg (by simpa)]
      simp
    have hdrop : (settled ++ a :: rest).dropWhile (fun c => decide (c ∉ g.nonterminals)) =
        a :: rest := by
      rw [List.dropWhile_append_of_pos (by simpa using hset), List.dropWhile_cons_of_neg (by simpa)]
    rw [htake, hdrop]
    exact List.mem_map.mpr ⟨body, hbody, rfl⟩

/-- A replacement brings in declared symbols only. -/
theorem mem_symbols_of_mem_expansions {form next : Word} (h : next ∈ g.expansions form)
    (hform : ∀ c ∈ form, c ∈ g.symbols) : ∀ c ∈ next, c ∈ g.symbols := by
  obtain ⟨settled, a, rest, body, rfl, _, _, hbody, rfl⟩ := mem_expansions.mp h
  intro c hc
  rcases List.mem_append.mp hc with hc | hc
  · exact hform c (List.mem_append_left _ hc)
  · rcases List.mem_append.mp hc with hc | hc
    · rcases g.wellFormed.body_mem _ (mem_bodies.mp hbody).2 c hc with hc | hc
      · exact List.mem_append_right _ hc
      · exact List.mem_append_left _ hc
    · exact hform c (List.mem_append_right _ (List.mem_cons_of_mem _ hc))

variable (g)

/-- The forms that a word of at most `n` letters can come from. The start symbol
is among them even if `n` is zero. -/
def forms (n : Nat) : Space Word where
  succ form := (g.expansions form).filter fun next => next.length ≤ n
  Mem form := form.length ≤ max n 1 ∧ ∀ c ∈ form, c ∈ g.symbols
  succ_mem := by
    intro form next hform hnext
    obtain ⟨hnext, hlen⟩ := List.mem_filter.mp hnext
    exact ⟨Nat.le_trans (of_decide_eq_true hlen) (Nat.le_max_left n 1),
      mem_symbols_of_mem_expansions hnext hform.2⟩
  bound _ := Nat.pow (g.symbols.length + 1) (max n 1)
  length_le l hl hmem :=
    Nat.le_trans (hl.length_le_of_subset fun form h => Word.mem_upTo.mpr (hmem form h))
      (Word.length_upTo_le _ _)

theorem mem_forms_start (n : Nat) : ∀ form ∈ [[g.start]], (g.forms n).Mem form := by
  intro form hform
  obtain rfl := List.mem_singleton.mp hform
  refine ⟨Nat.le_max_right n 1, fun c hc => ?_⟩
  obtain rfl := List.mem_singleton.mp hc
  exact List.mem_append_left _ g.wellFormed.start_mem

/-- The forms that the search finds. -/
def formsFound (n : Nat) : Numbering Word :=
  (g.forms n).explore none [[g.start]] (g.mem_forms_start n)

/-- The words of at most `n` letters that `g` generates without its empty
bodies. -/
def words (n : Nat) : SortedSet Word :=
  .ofList ((g.formsFound n).toList.filter g.AllTerminal)

end GrammarAutomata.Grammar
