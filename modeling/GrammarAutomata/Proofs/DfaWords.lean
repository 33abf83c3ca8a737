import GrammarAutomata.Dfa.Words
import GrammarAutomata.Proofs.SubsetConstruction

/-!
# The words of a deterministic automaton

The enumeration follows all runs at once, one symbol at a time. What a reading
still has before it is said by `Reading.Spoils` and `Reading.Finds`, which unfold
along the first symbol as the enumeration does. So the enumeration fails exactly
if some run of bounded length leads to a state that does not exist, and otherwise
it holds the words of the runs that end in an accepting state
(`Dfa.words?_eq_none_iff`, `Dfa.mem_words?`).
-/

namespace GrammarAutomata

/-- By at most `n` more symbols the reading leads to a state that does not exist. -/
def Reading.Spoils (d : Dfa) (n : Nat) (r : Reading) : Prop :=
  ∃ v q, v.length ≤ n ∧ d.Run r.state v q ∧ d.state? q = none

/-- By at most `n` more symbols the reading becomes one of `w` that ends in an
accepting state. -/
def Reading.Finds (d : Dfa) (n : Nat) (w : Word) (r : Reading) : Prop :=
  ∃ v q s, w = r.reversed.reverse ++ v ∧ v.length ≤ n ∧ d.Run r.state v q ∧
    d.state? q = some s ∧ s.accepting = true

namespace Dfa

variable {d : Dfa} {n : Nat} {w : Word} {r : Reading} {a : Arrival} {found : List Word}
  {front : List Reading}

/-! ## Arrivals -/

theorem arrive?_eq_none_iff : d.arrive? r = none ↔ d.state? r.state = none := by
  simp [arrive?]

theorem arrive?_eq_some_iff :
    d.arrive? r = some a ↔ d.state? r.state = some a.state ∧ r.reversed = a.reversed := by
  obtain ⟨s, u⟩ := a
  simp only [arrive?, Option.map_eq_some_iff, Arrival.mk.injEq]
  exact ⟨fun ⟨_, hs, hs', hu⟩ => ⟨hs' ▸ hs, hu⟩, fun ⟨hs, hu⟩ => ⟨s, hs, rfl, hu⟩⟩

theorem mem_further : r ∈ a.further ↔
    ∃ c, a.state.row.get? c = some r.state ∧ r.reversed = c :: a.reversed := by
  obtain ⟨q, u⟩ := r
  simp only [Arrival.further, List.mem_map, Reading.mk.injEq]
  refine ⟨?_, ?_⟩
  · rintro ⟨⟨c, q⟩, he, rfl, rfl⟩
    exact ⟨c, SortedMap.mem_entries_iff.mp he, rfl⟩
  · rintro ⟨c, hc, rfl⟩
    exact ⟨(c, q), SortedMap.mem_entries_iff.mpr hc, rfl, rfl⟩

theorem mem_acceptedWords {arrivals : List Arrival} : w ∈ acceptedWords arrivals ↔
    ∃ a ∈ arrivals, a.state.accepting = true ∧ a.reversed.reverse = w := by
  simp only [acceptedWords, List.mem_map, List.mem_filter]
  exact ⟨fun ⟨a, ⟨ha, hacc⟩, hw⟩ => ⟨a, ha, hacc, hw⟩, fun ⟨a, ha, hacc, hw⟩ => ⟨a, ⟨ha, hacc⟩, hw⟩⟩

/-! ## What a reading has before it, symbol by symbol -/

theorem spoils_of_arrive?_eq_none (h : d.arrive? r = none) : r.Spoils d n :=
  ⟨[], r.state, Nat.zero_le _, .nil _, arrive?_eq_none_iff.mp h⟩

theorem not_spoils_zero (h : d.arrive? r = some a) : ¬ r.Spoils d 0 := by
  rintro ⟨v, q, hlen, hrun, hq⟩
  obtain rfl := List.length_eq_zero_iff.mp (Nat.le_zero.mp hlen)
  cases hrun
  rw [arrive?_eq_none_iff.mpr hq] at h
  cases h

theorem spoils_succ_iff (h : d.arrive? r = some a) :
    r.Spoils d (n + 1) ↔ ∃ r' ∈ a.further, r'.Spoils d n := by
  obtain ⟨hs, hu⟩ := arrive?_eq_some_iff.mp h
  refine ⟨?_, ?_⟩
  · rintro ⟨v, q, hlen, hrun, hq⟩
    cases hrun with
    | nil =>
      -- the state that it has come to exists
      rw [hs] at hq
      cases hq
    | cons hs' hc hrun =>
      obtain rfl := Option.some.inj (hs.symm.trans hs')
      exact ⟨⟨_, _ :: a.reversed⟩, mem_further.mpr ⟨_, hc, rfl⟩, _, q,
        Nat.le_of_succ_le_succ hlen, hrun, hq⟩
  · rintro ⟨r', hr', v, q, hlen, hrun, hq⟩
    obtain ⟨c, hc, _⟩ := mem_further.mp hr'
    exact ⟨c :: v, q, Nat.succ_le_succ hlen, .cons hs hc hrun, hq⟩

theorem finds_zero_iff (h : d.arrive? r = some a) :
    r.Finds d 0 w ↔ a.state.accepting = true ∧ a.reversed.reverse = w := by
  obtain ⟨hs, hu⟩ := arrive?_eq_some_iff.mp h
  refine ⟨?_, ?_⟩
  · rintro ⟨v, q, s, rfl, hlen, hrun, hq, hacc⟩
    obtain rfl := List.length_eq_zero_iff.mp (Nat.le_zero.mp hlen)
    cases hrun
    obtain rfl := Option.some.inj (hs.symm.trans hq)
    exact ⟨hacc, by rw [hu, List.append_nil]⟩
  · rintro ⟨hacc, rfl⟩
    exact ⟨[], r.state, a.state, by rw [hu, List.append_nil], Nat.le_refl _, .nil _, hs, hacc⟩

/-- A word is found at once, or behind one more symbol. -/
theorem finds_succ_iff (h : d.arrive? r = some a) :
    r.Finds d (n + 1) w ↔ (a.state.accepting = true ∧ a.reversed.reverse = w) ∨
      ∃ r' ∈ a.further, r'.Finds d n w := by
  obtain ⟨hs, hu⟩ := arrive?_eq_some_iff.mp h
  refine ⟨?_, ?_⟩
  · rintro ⟨v, q, s, rfl, hlen, hrun, hq, hacc⟩
    cases hrun with
    | nil => exact .inl ((finds_zero_iff h).mp ⟨[], _, s, rfl, Nat.le_refl _, .nil _, hq, hacc⟩)
    | cons hs' hc hrun =>
      obtain rfl := Option.some.inj (hs.symm.trans hs')
      exact .inr ⟨⟨_, _ :: a.reversed⟩, mem_further.mpr ⟨_, hc, rfl⟩, _, q, s, by simp [hu],
        Nat.le_of_succ_le_succ hlen, hrun, hq, hacc⟩
  · rintro (⟨hacc, rfl⟩ | ⟨r', hr', v, q, s, rfl, hlen, hrun, hq, hacc⟩)
    · exact ⟨[], r.state, a.state, by rw [hu, List.append_nil], Nat.zero_le _, .nil _, hs, hacc⟩
    · obtain ⟨c, hc, hu'⟩ := mem_further.mp hr'
      exact ⟨c :: v, q, s, by simp [hu, hu'], Nat.succ_le_succ hlen, .cons hs hc hrun, hq, hacc⟩

/-! ## The enumeration -/

/-- A reading has come to a state that does not exist. -/
def Missing (d : Dfa) (front : List Reading) : Prop := ∃ r ∈ front, d.arrive? r = none

theorem any_isNone_iff : (front.any fun r => (d.arrive? r).isNone) = true ↔ d.Missing front := by
  simp only [List.any_eq_true, Option.isNone_iff_eq_none, Missing]

theorem exists_arrive? (h : ¬ d.Missing front) (hr : r ∈ front) : ∃ a, d.arrive? r = some a :=
  Option.ne_none_iff_exists'.mp fun hnone => h ⟨r, hr, hnone⟩

theorem wordsFrom?_of_missing (h : d.Missing front) : d.wordsFrom? found n front = none := by
  rw [wordsFrom?.eq_def, if_pos (any_isNone_iff.mpr h)]

theorem not_missing_of_wordsFrom? {result : List Word}
    (h : d.wordsFrom? found n front = some result) : ¬ d.Missing front := fun hmissing => by
  rw [wordsFrom?_of_missing hmissing] at h
  cases h

theorem wordsFrom?_zero (h : ¬ d.Missing front) :
    d.wordsFrom? found 0 front = some (acceptedWords (front.filterMap d.arrive?) ++ found) := by
  rw [wordsFrom?.eq_def, if_neg (mt any_isNone_iff.mp h)]

theorem wordsFrom?_nil : d.wordsFrom? found n [] = some found := by
  cases n <;> simp [wordsFrom?, acceptedWords]

theorem wordsFrom?_succ (h : ¬ d.Missing front) :
    d.wordsFrom? found (n + 1) front =
      d.wordsFrom? (acceptedWords (front.filterMap d.arrive?) ++ found) n
        ((front.filterMap d.arrive?).flatMap Arrival.further) := by
  rw [wordsFrom?.eq_def, if_neg (mt any_isNone_iff.mp h)]
  cases front.filterMap d.arrive? with
  | nil => exact wordsFrom?_nil.symm
  | cons a arrivals => rfl

/-- The readings one symbol further on are those behind the arrivals. -/
theorem mem_flatMap_further {r' : Reading} :
    r' ∈ (front.filterMap d.arrive?).flatMap Arrival.further ↔
      ∃ r ∈ front, ∃ a, d.arrive? r = some a ∧ r' ∈ a.further := by
  simp only [List.mem_flatMap, List.mem_filterMap]
  exact ⟨fun ⟨a, ⟨r, hr, ha⟩, h⟩ => ⟨r, hr, a, ha, h⟩, fun ⟨r, hr, a, ha, h⟩ => ⟨a, ⟨r, hr, ha⟩, h⟩⟩

theorem exists_spoils_of_missing (h : d.Missing front) : ∃ r ∈ front, r.Spoils d n := by
  obtain ⟨r, hr, hnone⟩ := h
  exact ⟨r, hr, spoils_of_arrive?_eq_none hnone⟩

/-- Following some words fails if one of them has a missing state before it. -/
theorem wordsFrom?_eq_none_iff :
    d.wordsFrom? found n front = none ↔ ∃ r ∈ front, r.Spoils d n := by
  induction n generalizing found front with
  | zero =>
    by_cases hmissing : d.Missing front
    · exact iff_of_true (wordsFrom?_of_missing hmissing) (exists_spoils_of_missing hmissing)
    · rw [wordsFrom?_zero hmissing]
      refine iff_of_false nofun fun ⟨r, hr, hspoils⟩ => ?_
      obtain ⟨a, ha⟩ := exists_arrive? hmissing hr
      exact not_spoils_zero ha hspoils
  | succ n ih =>
    by_cases hmissing : d.Missing front
    · exact iff_of_true (wordsFrom?_of_missing hmissing) (exists_spoils_of_missing hmissing)
    · rw [wordsFrom?_succ hmissing, ih]
      refine ⟨?_, ?_⟩
      · rintro ⟨r', hr', hspoils⟩
        obtain ⟨r, hr, a, ha, hfurther⟩ := mem_flatMap_further.mp hr'
        exact ⟨r, hr, (spoils_succ_iff ha).mpr ⟨r', hfurther, hspoils⟩⟩
      · rintro ⟨r, hr, hspoils⟩
        obtain ⟨a, ha⟩ := exists_arrive? hmissing hr
        obtain ⟨r', hfurther, hspoils⟩ := (spoils_succ_iff ha).mp hspoils
        exact ⟨r', mem_flatMap_further.mpr ⟨r, hr, a, ha, hfurther⟩, hspoils⟩

/-- The words that end where the front has come to. -/
theorem mem_acceptedWords_front : w ∈ acceptedWords (front.filterMap d.arrive?) ↔
    ∃ r ∈ front, ∃ a, d.arrive? r = some a ∧ a.state.accepting = true ∧ a.reversed.reverse = w := by
  simp only [mem_acceptedWords, List.mem_filterMap]
  exact ⟨fun ⟨a, ⟨r, hr, ha⟩, h⟩ => ⟨r, hr, a, ha, h⟩, fun ⟨r, hr, a, ha, h⟩ => ⟨a, ⟨r, hr, ha⟩, h⟩⟩

/-- Following some words finds what each of them finds. -/
theorem mem_wordsFrom? {result : List Word} (h : d.wordsFrom? found n front = some result) :
    w ∈ result ↔ w ∈ found ∨ ∃ r ∈ front, r.Finds d n w := by
  have hmissing := not_missing_of_wordsFrom? h
  induction n generalizing found front with
  | zero =>
    rw [wordsFrom?_zero hmissing] at h
    obtain rfl := Option.some.inj h
    rw [List.mem_append, or_comm, mem_acceptedWords_front]
    refine or_congr_right ⟨fun ⟨r, hr, a, ha, hw⟩ => ⟨r, hr, (finds_zero_iff ha).mpr hw⟩, ?_⟩
    rintro ⟨r, hr, hfinds⟩
    obtain ⟨a, ha⟩ := exists_arrive? hmissing hr
    exact ⟨r, hr, a, ha, (finds_zero_iff ha).mp hfinds⟩
  | succ n ih =>
    rw [wordsFrom?_succ hmissing] at h
    refine (ih h (not_missing_of_wordsFrom? h)).trans ?_
    rw [List.mem_append, or_comm (a := w ∈ acceptedWords _), or_assoc,
      mem_acceptedWords_front]
    refine or_congr_right ⟨?_, ?_⟩
    -- found by the front itself, or by what is one symbol further on
    · rintro (⟨r, hr, a, ha, hw⟩ | ⟨r', hr', hfinds⟩)
      · exact ⟨r, hr, (finds_succ_iff ha).mpr (.inl hw)⟩
      · obtain ⟨r, hr, a, ha, hfurther⟩ := mem_flatMap_further.mp hr'
        exact ⟨r, hr, (finds_succ_iff ha).mpr (.inr ⟨r', hfurther, hfinds⟩)⟩
    · rintro ⟨r, hr, hfinds⟩
      obtain ⟨a, ha⟩ := exists_arrive? hmissing hr
      rcases (finds_succ_iff ha).mp hfinds with hw | ⟨r', hfurther, hfinds⟩
      · exact .inl ⟨r, hr, a, ha, hw⟩
      · exact .inr ⟨r', mem_flatMap_further.mpr ⟨r, hr, a, ha, hfurther⟩, hfinds⟩

/-- There is no answer if a run of at most `n` symbols leads to a state that does
not exist. -/
theorem words?_eq_none_iff :
    d.words? n = none ↔ ∃ v q, v.length ≤ n ∧ d.Run 0 v q ∧ d.state? q = none := by
  rw [words?, Option.map_eq_none_iff, wordsFrom?_eq_none_iff]
  simp only [List.mem_singleton, exists_eq_left, Reading.Spoils]

/-- The words found are those of at most `n` symbols whose run ends in an accepting
state. -/
theorem mem_words? {words : SortedSet Word} (h : d.words? n = some words) :
    w ∈ words ↔ w.length ≤ n ∧
      ∃ q s, d.Run 0 w q ∧ d.state? q = some s ∧ s.accepting = true := by
  obtain ⟨result, hresult, rfl⟩ := Option.map_eq_some_iff.mp h
  rw [SortedSet.mem_ofList, mem_wordsFrom? hresult]
  simp only [List.not_mem_nil, false_or, List.mem_singleton, exists_eq_left, Reading.Finds]
  refine ⟨?_, ?_⟩
  · rintro ⟨v, q, s, rfl, hlen, hrun, hq, hacc⟩
    exact ⟨hlen, q, s, hrun, hq, hacc⟩
  · rintro ⟨hlen, q, s, hrun, hq, hacc⟩
    exact ⟨w, q, s, rfl, hlen, hrun, hq, hacc⟩

/-! ## Behind the subset construction -/

/-- Of an automaton made by subset construction every word is found, up to any
length, that the automaton accepts. -/
theorem exists_words?_ofNfa (m : Nfa) (n : Nat) : ∃ words, (ofNfa m).words? n = some words ∧
    ∀ w, w ∈ words ↔ w.length ≤ n ∧ (ofNfa m).accepts? w = some true := by
  cases hwords : (ofNfa m).words? n with
  | none =>
    obtain ⟨v, q, _, hrun, hq⟩ := words?_eq_none_iff.mp hwords
    rw [state?_of_run hrun] at hq
    cases hq
  | some words =>
    refine ⟨words, rfl, fun w => (mem_words? hwords).trans (and_congr_right fun _ => ?_)⟩
    refine ⟨?_, ?_⟩
    · rintro ⟨q, s, hrun, hq, hacc⟩
      rw [accepts?_of_run (mem_alphabet_of_run hrun) hrun hq, hacc]
    · intro hacc
      obtain ⟨hw, haccepts⟩ := accepts?_ofNfa_iff.mp hacc
      obtain ⟨q, hrun, hq⟩ := exists_run_after hw
      exact ⟨q, _, hrun, hq, decide_eq_true (Nfa.accepting_after_iff.mpr haccepts)⟩

end Dfa

end GrammarAutomata
