/-!
# Words

Symbols are characters and words are lists of them. Which characters count as
symbols is up to a grammar or an automaton; here stands only what holds of words
over any alphabet, above all that there are finitely many up to a given length.
-/

namespace GrammarAutomata

/-- A word, or any other sequence of symbols. -/
abbrev Word := List Char

namespace Word

/-- All words over an alphabet that have at most `n` letters. -/
def upTo (alphabet : List Char) : Nat → List Word
  | 0 => [[]]
  | n + 1 => [] :: alphabet.flatMap fun c => (upTo alphabet n).map (c :: ·)

theorem mem_upTo {alphabet : List Char} {n : Nat} {w : Word} :
    w ∈ upTo alphabet n ↔ w.length ≤ n ∧ ∀ c ∈ w, c ∈ alphabet := by
  induction n generalizing w with
  | zero => cases w <;> simp [upTo]
  | succ n ih =>
    cases w with
    | nil => simp [upTo]
    | cons c w =>
      simp only [upTo, List.mem_cons, List.mem_flatMap, List.mem_map, ih, reduceCtorEq, false_or,
        List.length_cons, Nat.add_le_add_iff_right, List.cons.injEq]
      constructor
      · rintro ⟨c, hc, w, ⟨hlen, hw⟩, rfl, rfl⟩
        refine ⟨hlen, fun d hd => ?_⟩
        rcases hd with rfl | hd
        · exact hc
        · exact hw d hd
      · rintro ⟨hlen, hw⟩
        exact ⟨c, hw c (.inl rfl), w, ⟨hlen, fun d hd => hw d (.inr hd)⟩, rfl, rfl⟩

/-- Padded with a blank to `n` letters, the words stay different: there are at
most `(k + 1) ^ n` over `k` letters. -/
theorem length_upTo_le (alphabet : List Char) (n : Nat) :
    (upTo alphabet n).length ≤ Nat.pow (alphabet.length + 1) n := by
  induction n with
  | zero => simp [upTo]
  | succ n ih =>
    have hsum : (alphabet.flatMap fun c => (upTo alphabet n).map (c :: ·)).length =
        alphabet.length * (upTo alphabet n).length := by
      rw [List.length_flatMap]
      simp only [List.length_map]
      rw [List.map_const', List.sum_replicate_nat]
    have hpos : 0 < Nat.pow (alphabet.length + 1) n := Nat.pow_pos (Nat.succ_pos _)
    calc (upTo alphabet (n + 1)).length
        = alphabet.length * (upTo alphabet n).length + 1 := by rw [upTo, List.length_cons, hsum]
      _ ≤ alphabet.length * Nat.pow (alphabet.length + 1) n + Nat.pow (alphabet.length + 1) n :=
          Nat.add_le_add (Nat.mul_le_mul_left _ ih) hpos
      _ = Nat.pow (alphabet.length + 1) (n + 1) := by
          rw [Nat.mul_comm alphabet.length]; rfl

end Word

end GrammarAutomata
