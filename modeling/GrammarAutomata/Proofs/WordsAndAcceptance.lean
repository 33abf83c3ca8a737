import GrammarAutomata.Proofs.DfaWords

/-!
# Listing words and matching them

A deterministic automaton can be asked for its words up to a length, and it can be
asked about one word. The list follows the rows wherever they lead; a single word is
first compared with the alphabet and then read from state to state. Both stop where a
state does not exist: a single word if a beginning of it leads there
(`Dfa.acceptsFrom?_eq_none_iff`), the list if any word that is short enough does. So a
word over the alphabet has an answer whenever the list that could hold it exists, and
the answer is whether the list holds it (`Dfa.accepts?_eq_mem_words?`).
-/

namespace GrammarAutomata.Dfa

variable {d : Dfa} {p : Nat} {w : Word} {n : Nat}

/-! ## Reading one word -/

/-- There is no answer if a beginning of the word leads to a state that does not exist. -/
theorem acceptsFrom?_eq_none_iff : d.acceptsFrom? p w = none ↔
    ∃ u v q, w = u ++ v ∧ d.Run p u q ∧ d.state? q = none := by
  induction w generalizing p with
  | nil =>
    rw [acceptsFrom?, Option.map_eq_none_iff]
    refine ⟨fun h => ⟨[], [], p, rfl, .nil p, h⟩, ?_⟩
    rintro ⟨u, v, q, hw, hrun, hq⟩
    obtain ⟨rfl, rfl⟩ := List.append_eq_nil_iff.mp hw.symm
    cases hrun
    exact hq
  | cons c w ih =>
    rw [acceptsFrom?]
    cases hs : d.state? p with
    | none => exact iff_of_true rfl ⟨[], c :: w, p, rfl, .nil p, hs⟩
    | some s =>
      rw [Option.bind_some]
      -- a beginning that leads to a missing state is not empty, so it goes on as the row says
      cases hc : s.row.get? c with
      | none =>
        refine iff_of_false (Option.some_ne_none false) ?_
        rintro ⟨u, v, q, hw, hrun, hq⟩
        cases hrun with
        | nil => cases hs.symm.trans hq
        | cons hs' hc' _ =>
          cases hw
          cases hs.symm.trans hs'
          cases hc.symm.trans hc'
      | some r =>
        refine ih.trans ⟨?_, ?_⟩
        · rintro ⟨u, v, q, rfl, hrun, hq⟩
          exact ⟨c :: u, v, q, rfl, .cons hs hc hrun, hq⟩
        · rintro ⟨u, v, q, hw, hrun, hq⟩
          cases hrun with
          | nil => cases hs.symm.trans hq
          | cons hs' hc' hrun =>
            cases hw
            cases hs.symm.trans hs'
            cases hc.symm.trans hc'
            exact ⟨_, v, q, rfl, hrun, hq⟩

/-- The answer is yes if the word leads to an accepting state. -/
theorem acceptsFrom?_eq_true_iff : d.acceptsFrom? p w = some true ↔
    ∃ q s, d.Run p w q ∧ d.state? q = some s ∧ s.accepting = true := by
  refine ⟨fun h => ?_, ?_⟩
  · induction w generalizing p with
    | nil =>
      obtain ⟨s, hs, hacc⟩ := Option.map_eq_some_iff.mp h
      exact ⟨p, s, .nil p, hs, hacc⟩
    | cons c w ih =>
      rw [acceptsFrom?] at h
      obtain ⟨s, hs, h⟩ := Option.bind_eq_some_iff.mp h
      cases hc : s.row.get? c with
      | none => simp [hc] at h
      | some r =>
        rw [hc] at h
        obtain ⟨q, t, hrun, hq, hacc⟩ := ih h
        exact ⟨q, t, .cons hs hc hrun, hq, hacc⟩
  · rintro ⟨q, s, hrun, hq, hacc⟩
    rw [acceptsFrom?_of_run hrun hq, hacc]

/-! ## Reading the words of a list -/

/-- Where there is a list of words, no word that could be in it leads to a state that does
not exist, nor does any beginning of it. -/
theorem exists_acceptsFrom?_of_words? {words : SortedSet Word} (h : d.words? n = some words)
    (hlength : w.length ≤ n) : ∃ accepted, d.acceptsFrom? 0 w = some accepted ∧
      (accepted = true ↔ w ∈ words) := by
  cases hanswer : d.acceptsFrom? 0 w with
  | none =>
    obtain ⟨u, v, q, rfl, hrun, hq⟩ := acceptsFrom?_eq_none_iff.mp hanswer
    have hu : u.length ≤ n := by
      rw [List.length_append] at hlength
      omega
    rw [words?_eq_none_iff.mpr ⟨u, q, hu, hrun, hq⟩] at h
    cases h
  | some accepted =>
    refine ⟨accepted, rfl, ?_⟩
    rw [mem_words? h, and_iff_right hlength, ← acceptsFrom?_eq_true_iff, hanswer, Option.some.injEq]

/-- A word over the alphabet is matched as it is read. -/
theorem accepts?_eq_acceptsFrom? (hw : ∀ c ∈ w, c ∈ d.alphabet) :
    d.accepts? w = d.acceptsFrom? 0 w :=
  if_pos (List.all_eq_true.mpr fun c hc => decide_eq_true (hw c hc))

/-- **Listing and matching agree, also where they fail.** There is no list of the words
of at most `n` symbols if one of so many symbols has a run to a state that does not exist.
Otherwise the list holds those whose run ends in an accepting state, and of every word
over the alphabet that is short enough matching says whether the list holds it. If the
automaton has been made by subset construction, there is always a list, and matching
answers so about every word that is short enough. -/
theorem accepts?_eq_mem_words? (d : Dfa) (n : Nat) :
    (d.words? n = none ↔ ∃ w q, w.length ≤ n ∧ d.Run 0 w q ∧ d.state? q = none) ∧
    (∀ words, d.words? n = some words →
      (∀ w, w ∈ words ↔ w.length ≤ n ∧
        ∃ q s, d.Run 0 w q ∧ d.state? q = some s ∧ s.accepting = true) ∧
      ∀ w, (∀ c ∈ w, c ∈ d.alphabet) → w.length ≤ n →
        ∃ accepted, d.accepts? w = some accepted ∧ (accepted = true ↔ w ∈ words)) ∧
    ∀ m, d = ofNfa m → ∃ words, d.words? n = some words ∧ ∀ w, w.length ≤ n →
      ∃ accepted, d.accepts? w = some accepted ∧ (accepted = true ↔ w ∈ words) := by
  refine ⟨words?_eq_none_iff, fun words h => ⟨fun w => mem_words? h, fun w hw hlength => ?_⟩, ?_⟩
  · rw [accepts?_eq_acceptsFrom? hw]
    exact exists_acceptsFrom?_of_words? h hlength
  · rintro m rfl
    obtain ⟨words, hwords, hmem⟩ := exists_words?_ofNfa m n
    refine ⟨words, hwords, fun w hlength => ?_⟩
    obtain ⟨accepted, haccepted⟩ := exists_accepts?_ofNfa (n := m) (w := w)
    refine ⟨accepted, haccepted, ?_⟩
    rw [hmem, and_iff_right hlength, haccepted, Option.some.injEq]

/-- An automaton over `a` and `b` that reads `z` as well, and has no state 3. -/
def holed : Dfa where
  states := #[⟨"p", ∅, false, .ofList [('a', 1), ('z', 2)]⟩, ⟨"q", ∅, true, .ofList [('b', 0)]⟩,
    ⟨"r", ∅, true, .ofList [('a', 3)]⟩]
  alphabet := .ofList ['a', 'b']
  size_pos := by decide

/-- It has a list of the words of one symbol, where `z` stands beside `a`, but none of those
of two: `za` leads to the state that is missing. -/
theorem accepts?_eq_mem_words?_holed :
    (∃ w q, w.length ≤ 2 ∧ holed.Run 0 w q ∧ holed.state? q = none) ∧ holed.words? 2 = none ∧
    (∃ words, holed.words? 1 = some words ∧ ['z'] ∈ words ∧
      (∀ c ∈ ['b'], c ∈ holed.alphabet) ∧ ['b'].length ≤ 1 ∧
      ∃ accepted, holed.accepts? ['b'] = some accepted ∧ (accepted = true ↔ ['b'] ∈ words)) ∧
    ∃ words, (ofNfa straying).words? 2 = some words ∧ ['b', 'b'].length ≤ 2 ∧
      ∃ accepted, (ofNfa straying).accepts? ['b', 'b'] = some accepted ∧
        (accepted = true ↔ ['b', 'b'] ∈ words) := by
  obtain ⟨hnone, -, -⟩ := accepts?_eq_mem_words? holed 2
  obtain ⟨-, hsome, -⟩ := accepts?_eq_mem_words? holed 1
  obtain ⟨-, -, hmade⟩ := accepts?_eq_mem_words? (ofNfa straying) 2
  have hmissing : holed.words? 2 = none := by decide +kernel
  refine ⟨hnone.mp hmissing, hmissing, ?_, ?_⟩
  · have hone : (holed.words? 1).any (['z'] ∈ ·) = true := by decide +kernel
    cases hwords : holed.words? 1 with
    | none => simp [hwords] at hone
    | some words =>
      rw [hwords] at hone
      have hb : ∀ c ∈ ['b'], c ∈ holed.alphabet := by
        intro c hc
        obtain rfl := List.mem_singleton.mp hc
        decide +kernel
      exact ⟨words, rfl, by simpa using hone, hb, Nat.le_refl 1,
        (hsome words hwords).2 ['b'] hb (Nat.le_refl 1)⟩
  · obtain ⟨words, hwords, hall⟩ := hmade straying rfl
    exact ⟨words, hwords, Nat.le_refl 2, hall ['b', 'b'] (Nat.le_refl 2)⟩

end GrammarAutomata.Dfa
