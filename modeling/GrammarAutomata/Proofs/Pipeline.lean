import GrammarAutomata.Dfa.Drawing
import GrammarAutomata.Proofs.Building
import GrammarAutomata.Proofs.Compilation
import GrammarAutomata.Proofs.Queue

/-!
# Nothing is looked for in vain

From a grammar to the answers of its deterministic automaton there are many look-ups: of
nonterminals in the table of their states, of states by number, of sets by number, of the
states that rows name. Any that finds nothing leaves the whole without a result. None does
(`Nfa.lookups_succeed`): an automaton is built, reversed, drawn and made deterministic as
if nothing could be missing, and the deterministic automaton has an answer to each
question (`Dfa.answers_ofNfa`).
-/

namespace GrammarAutomata

namespace Dfa

variable {n : Nfa} {s : DfaState} {i q : Nat}

/-- The automaton has an answer to each question that looks at its states. -/
structure Answers (d : Dfa) : Prop where
  /-- whether a word is accepted -/
  accepts? : ∀ w, ∃ accepted, d.accepts? w = some accepted
  /-- which words are accepted, up to any length -/
  words? : ∀ k, ∃ words, d.words? k = some words
  /-- which states are reachable -/
  reachable? : ∃ states, d.reachable? = some states
  /-- how it is drawn -/
  toDot? : ∃ text, d.toDot? = some text

/-- Rows name states that exist. -/
theorem lt_size_of_mem_targets (hs : (ofNfa n).state? i = some s) (hq : q ∈ s.row.targets) :
    q < (ofNfa n).size := by
  obtain ⟨set, hset, rfl⟩ := exists_subset_of_state? hs
  obtain ⟨⟨c, r⟩, hentry, rfl⟩ := List.mem_map.mp hq
  have hget := SortedMap.mem_entries_iff.mp hentry
  rw [get?_row_ofNfa] at hget
  split at hget
  · rename_i hc
    obtain rfl := Option.some.inj hget
    rw [size_ofNfa]
    exact Numbering.lt_size_of_get? (Nfa.get?_placeOf_step hset hc)
  · cases hget

theorem toDot?_ofNfa (n : Nfa) : (ofNfa n).toDot? = some (ofNfa n).drawing.text := by
  refine if_pos fun s hs q hq => ?_
  obtain ⟨i, hi⟩ := Array.mem_iff_getElem?.mp hs
  exact lt_size_of_mem_targets hi hq

theorem answers_ofNfa (n : Nfa) : (ofNfa n).Answers where
  accepts? _ := exists_accepts?_ofNfa
  words? k := by
    obtain ⟨words, hwords, _⟩ := exists_words?_ofNfa n k
    exact ⟨words, hwords⟩
  reachable? := by
    obtain ⟨states, hstates, _⟩ := reachable?_ofNfa n
    exact ⟨states, hstates⟩
  toDot? := ⟨_, toDot?_ofNfa n⟩

end Dfa

namespace Nfa

/-- Reverse an automaton a number of times, one after the other. -/
def reverseTimes? (n : Nfa) : Nat → Option Nfa
  | 0 => some n
  | k + 1 => do
    let m ← n.reverseTimes? k
    m.reverse?

theorem exists_reverseTimes? (n : Nfa) (k : Nat) : ∃ m, n.reverseTimes? k = some m ∧ n.Turned m := by
  induction k with
  | zero => exact ⟨n, rfl, .refl⟩
  | succ k ih =>
    obtain ⟨m, hm, hturned⟩ := ih
    exact ⟨m.reverse, by rw [reverseTimes?, hm]; exact reverse?_eq m, .reverse hturned⟩

/-- **Nothing is looked for in vain.** Whatever the grammar and the options are, its
automaton is built, or it is said why there is none. It can be reversed as often as one
likes, and then be drawn and made deterministic: without a limit the construction always
ends with a deterministic automaton, and with one it ends so or because the limit is too
low. Every deterministic automaton that there is has an answer to each question. -/
theorem lookups_succeed (g : Grammar) (options : Options) :
    build? g options = some (ofGrammar g options) ∧
    ∀ n₀, ofGrammar g options = .ok n₀ → ∀ k, ∃ n, n₀.reverseTimes? k = some n ∧ n₀.Turned n ∧
      n.toDot? = some n.toDot ∧
      (∀ outcome, n.Constructs none outcome ↔ outcome = some (.ok (Dfa.ofNfa n))) ∧
      (Dfa.ofNfa n).Answers ∧
      ∀ options' : Options, (∀ outcome, n.Constructs options'.maxDfaStates outcome ↔
          outcome = some (Dfa.ofNfaWith n options')) ∧
        ∀ d, Dfa.ofNfaWith n options' = .ok d → d.Answers := by
  refine ⟨build?_eq g options, fun n₀ _ k => ?_⟩
  obtain ⟨n, hn, hturned⟩ := exists_reverseTimes? n₀ k
  have hunlimited (outcome) : n.Constructs ({} : Options).maxDfaStates outcome ↔
      outcome = some (.ok (Dfa.ofNfa n)) := constructs_iff
  refine ⟨n, hn, hturned, toDot?_eq n, hunlimited, Dfa.answers_ofNfa n, fun options' => ?_⟩
  refine ⟨fun outcome => constructs_iff, fun d hd => ?_⟩
  rw [Dfa.eq_ofNfa_of_ofNfaWith hd]
  exact Dfa.answers_ofNfa n

/-- The automaton of a left-linear grammar, reversed twice more. -/
theorem lookups_succeed_leftSample :
    ∃ n₀, ofGrammar Dfa.leftSample {} = .ok n₀ ∧ build? Dfa.leftSample {} = some (.ok n₀) ∧
      ∃ n, n₀.reverseTimes? 2 = some n ∧ n₀.Turned n ∧ n.toDot? = some n.toDot ∧
        n.Constructs none (some (.ok (Dfa.ofNfa n))) ∧ (Dfa.ofNfa n).Answers := by
  obtain ⟨n₀, h⟩ := exists_ok_of_isOk (x := ofGrammar Dfa.leftSample {}) (by decide +kernel)
  obtain ⟨hbuild, hlookups⟩ := lookups_succeed Dfa.leftSample {}
  obtain ⟨n, hn, hturned, hdot, hdfa, hanswers, _⟩ := hlookups n₀ h 2
  exact ⟨n₀, h, hbuild.trans (congrArg some h), n, hn, hturned, hdot, (hdfa _).mpr rfl, hanswers⟩

end Nfa

end GrammarAutomata
