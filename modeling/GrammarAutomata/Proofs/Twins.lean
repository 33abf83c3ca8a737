import GrammarAutomata.Proofs.Lockstep
import GrammarAutomata.Proofs.Reversal

/-!
# Twin states

Automata can differ in the numbers of their states, and in how many states they have
for one purpose, and still do the same. Each state of the one has twins in the other,
and what leads to a state or away from it is found again at each of its twins
(`Nfa.Twins`). Reversed, such automata are of that kind again (`Nfa.Twins.reverse`).

In what can be told after reading there is no difference: a set that reading leads to
holds all twins of a state or none (`Nfa.Matches`). Sets that match are numbered alike,
so subset construction makes automata of the same shape (`Dfa.sameOutcome_ofNfaWith`).
-/

namespace GrammarAutomata

namespace Nfa

variable {n m : Nfa} {R : Nat → Nat → Prop} {set set' : SortedSet Nat} {p p' q' : Nat} {c : Char}
  {w : Word}

/-! ## Following -/

/-- What `n` does at a state, `m` does at each of its twins. -/
structure Follows (n m : Nfa) (R : Nat → Nat → Prop) : Prop where
  /-- twins are states that exist -/
  lt_size : ∀ p q, R p q → p < n.size ∧ q < m.size
  /-- each state has a twin -/
  exists_twin : ∀ p < n.size, ∃ q, R p q
  /-- the initial state has the initial state only -/
  initial : ∀ q, R n.initial q → q = m.initial
  /-- the twins of final states are final -/
  final : ∀ p q, R p q → p ∈ n.finals → q ∈ m.finals
  /-- a step away from a state is taken away from its twins -/
  forth : ∀ p q l p', R p q → ⟨p, l, p'⟩ ∈ n.transitions →
    ∃ q', R p' q' ∧ ⟨q, l, q'⟩ ∈ m.transitions
  /-- a step to a state is taken to its twins -/
  back : ∀ p l p' q', R p' q' → ⟨p, l, p'⟩ ∈ n.transitions →
    ∃ q, R p q ∧ ⟨q, l, q'⟩ ∈ m.transitions

namespace Follows

/-- A path to a state is gone to its twins. -/
theorem exists_path (h : n.Follows m R) (hpath : n.Path p w p') (hR : R p' q') :
    ∃ q, R p q ∧ m.Path q w q' := by
  induction hpath with
  | nil => exact ⟨q', hR, .nil q'⟩
  | epsilon ht _ ih =>
    obtain ⟨r, hr, hpath⟩ := ih hR
    obtain ⟨q, hq, ht'⟩ := h.back _ _ _ r hr ht
    exact ⟨q, hq, .epsilon ht' hpath⟩
  | symbol ht _ ih =>
    obtain ⟨r, hr, hpath⟩ := ih hR
    obtain ⟨q, hq, ht'⟩ := h.back _ _ _ r hr ht
    exact ⟨q, hq, .symbol ht' hpath⟩

theorem mem_start (h : n.Follows m R) (hR : R p' q') (hp : p' ∈ n.start) : q' ∈ m.start := by
  obtain ⟨q, hq, hpath⟩ := h.exists_path (mem_start_iff.mp hp) hR
  rw [h.initial q hq] at hpath
  exact mem_start_iff.mpr hpath

theorem mem_step (h : n.Follows m R) (hset : ∀ p q, R p q → p ∈ set → q ∈ set') (hR : R p' q')
    (hp : p' ∈ n.step set c) : q' ∈ m.step set' c := by
  obtain ⟨p, hp, r, ht, hpath⟩ := mem_step_iff.mp hp
  obtain ⟨s, hs, hpath'⟩ := h.exists_path hpath hR
  obtain ⟨q, hq, ht'⟩ := h.back p _ r s hs ht
  exact mem_step_iff.mpr ⟨q, hset p q hq hp, s, ht', hpath'⟩

theorem accepting (h : n.Follows m R) (hset : ∀ p q, R p q → p ∈ set → q ∈ set')
    (hlt : ∀ p ∈ set, p < n.size) (haccepting : n.Accepting set) : m.Accepting set' := by
  obtain ⟨p, hp, hfinal⟩ := haccepting
  obtain ⟨q, hq⟩ := h.exists_twin p (hlt p hp)
  exact ⟨q, hset p q hq hp, h.final p q hq hfinal⟩

end Follows

/-! ## Reversal -/

/-- The states that reversal adds are twins. -/
def TwinReversed (n m : Nfa) (R : Nat → Nat → Prop) (p q : Nat) : Prop :=
  R p q ∨ (p = n.size ∧ q = m.size)

/-- Turned around, what leads to a state leads away from it, so that each of the two
conditions on steps gives the other. -/
theorem Follows.reverse (h : n.Follows m R) :
    n.reverse.Follows m.reverse (n.TwinReversed m R) := by
  have hold {p q : Nat} (hR : n.TwinReversed m R p q) (hp : p < n.size) : R p q :=
    hR.resolve_right fun hnew => absurd hnew.1 (Nat.ne_of_lt hp)
  refine ⟨?_, ?_, ?_, ?_, ?_, ?_⟩
  · rintro p q (hR | ⟨rfl, rfl⟩)
    · obtain ⟨hp, hq⟩ := h.lt_size p q hR
      rw [size_reverse, size_reverse]
      exact ⟨Nat.lt_succ_of_lt hp, Nat.lt_succ_of_lt hq⟩
    · exact ⟨n.reverse.initial_lt, m.reverse.initial_lt⟩
  · intro p hp
    rw [size_reverse] at hp
    rcases Nat.lt_or_eq_of_le (Nat.le_of_lt_succ hp) with hp | rfl
    · obtain ⟨q, hq⟩ := h.exists_twin p hp
      exact ⟨q, .inl hq⟩
    · exact ⟨m.size, .inr ⟨rfl, rfl⟩⟩
  · rintro q (hR | ⟨_, hq⟩)
    · exact absurd (h.lt_size _ q hR).1 (Nat.lt_irrefl _)
    · exact hq
  · intro p q hR hp
    obtain rfl := mem_finals_reverse.mp hp
    exact mem_finals_reverse.mpr (h.initial q (hold hR n.initial_lt))
  · rintro p q l p' hR ht
    rcases mem_transitions_reverse.mp ht with ⟨rfl, rfl, hp'⟩ | ht
    · -- the new state leads to the states that were final, and those have twins
      obtain ⟨q', hq'⟩ := h.exists_twin p' (n.finals_lt p' hp')
      rcases hR with hR | ⟨_, rfl⟩
      · exact absurd (h.lt_size _ q hR).1 (Nat.lt_irrefl _)
      · exact ⟨q', .inl hq', mem_transitions_reverse.mpr (.inl ⟨rfl, rfl, h.final p' q' hq' hp'⟩)⟩
    · obtain ⟨q', hq', ht'⟩ := h.back p' l p q (hold hR (lt_size_of_mem_transitions ht)) ht
      exact ⟨q', .inl hq', mem_transitions_reverse.mpr (.inr ht')⟩
  · rintro p l p' q' hR ht
    replace hR := hold hR (target_lt_of_mem_transitions_reverse ht)
    rcases mem_transitions_reverse.mp ht with ⟨rfl, rfl, hp'⟩ | ht
    · refine ⟨m.size, .inr ⟨rfl, rfl⟩, mem_transitions_reverse.mpr (.inl ⟨rfl, rfl, ?_⟩)⟩
      exact h.final p' q' hR hp'
    · obtain ⟨q, hq, ht'⟩ := h.forth p' q' l p hR ht
      exact ⟨q, .inl hq, mem_transitions_reverse.mpr (.inr ht')⟩

/-! ## Twins -/

/-- Automata over one alphabet that follow each other. -/
structure Twins (n m : Nfa) (R : Nat → Nat → Prop) : Prop where
  /-- both read the same symbols -/
  alphabet : n.alphabet = m.alphabet
  /-- what `n` does, `m` does -/
  follows : n.Follows m R
  /-- and what `m` does, `n` does -/
  followed : m.Follows n fun q p => R p q

theorem Twins.reverse (h : n.Twins m R) : n.reverse.Twins m.reverse (n.TwinReversed m R) := by
  refine ⟨h.alphabet, h.follows.reverse, ?_⟩
  have hswap : (fun q p => n.TwinReversed m R p q) = m.TwinReversed n fun q p => R p q := by
    funext q p
    exact propext (or_congr_right and_comm)
  rw [hswap]
  exact h.followed.reverse

/-! ## Sets of twins -/

/-- Sets of states that exist, of which the one holds a state if and only if the other
holds its twins. -/
structure Matches (n m : Nfa) (R : Nat → Nat → Prop) (set set' : SortedSet Nat) : Prop where
  /-- all twins belong to the other set, or none does -/
  mem_iff : ∀ p q, R p q → (p ∈ set ↔ q ∈ set')
  /-- the states of the one exist -/
  lt_left : ∀ p ∈ set, p < n.size
  /-- the states of the other exist -/
  lt_right : ∀ q ∈ set', q < m.size

namespace Twins

/-- A set matches one set at most: every member has a twin. -/
theorem biUnique_matches (h : n.Twins m R) : Relator.BiUnique (n.Matches m R) := by
  refine ⟨?_, ?_⟩
  · have hsub {s t u : SortedSet Nat} (hs : n.Matches m R s u) (ht : n.Matches m R t u) :
        ∀ p ∈ s, p ∈ t := by
      intro p hp
      obtain ⟨q, hq⟩ := h.follows.exists_twin p (hs.lt_left p hp)
      exact (ht.mem_iff p q hq).mpr ((hs.mem_iff p q hq).mp hp)
    exact fun s t u hs ht => SortedSet.ext fun p => ⟨hsub hs ht p, hsub ht hs p⟩
  · have hsub {s t u : SortedSet Nat} (hs : n.Matches m R u s) (ht : n.Matches m R u t) :
        ∀ q ∈ s, q ∈ t := by
      intro q hq
      obtain ⟨p, hp⟩ := h.followed.exists_twin q (hs.lt_right q hq)
      exact (ht.mem_iff p q hp).mp ((hs.mem_iff p q hp).mpr hq)
    exact fun u s t hs ht => SortedSet.ext fun q => ⟨hsub hs ht q, hsub ht hs q⟩

theorem matches_start (h : n.Twins m R) : n.Matches m R n.start m.start where
  mem_iff _ _ hR := ⟨h.follows.mem_start hR, h.followed.mem_start hR⟩
  lt_left := start_lt
  lt_right := start_lt

/-- Reading a symbol leads from sets that match to such sets. -/
theorem matches_step (h : n.Twins m R) (hset : n.Matches m R set set') (c : Char) :
    n.Matches m R (n.step set c) (m.step set' c) where
  mem_iff _ _ hR := ⟨h.follows.mem_step (fun p q hR => (hset.mem_iff p q hR).mp) hR,
    h.followed.mem_step (fun q p hR => (hset.mem_iff p q hR).mpr) hR⟩
  lt_left := step_lt
  lt_right := step_lt

theorem accepting_iff (h : n.Twins m R) (hset : n.Matches m R set set') :
    n.Accepting set ↔ m.Accepting set' :=
  ⟨h.follows.accepting (fun p q hR => (hset.mem_iff p q hR).mp) hset.lt_left,
    h.followed.accepting (fun q p hR => (hset.mem_iff p q hR).mpr) hset.lt_right⟩

/-- The sets with the same number match. -/
theorem paired_subsets (h : n.Twins m R) (limit : Option Nat) :
    Numbering.Paired (n.Matches m R) (n.subsets limit) (m.subsets limit) := by
  refine .explore h.biUnique_matches (fun set set' hset => ?_) (.cons h.matches_start .nil)
  show List.Forall₂ _ (n.alphabet.toList.map _) (m.alphabet.toList.map _)
  rw [← h.alphabet, List.forall₂_map_left_iff, List.forall₂_map_right_iff]
  exact List.forall₂_same.mpr fun c _ => h.matches_step hset c

end Twins

end Nfa

namespace Dfa

/-! ## Automata of one shape -/

/-- Automata that differ in nothing but the names of their states and the sets that
these stand for. -/
structure SameShape (d d' : Dfa) : Prop where
  /-- both read the same symbols -/
  alphabet : d.alphabet = d'.alphabet
  /-- they have equally many states -/
  size : d.size = d'.size
  /-- states with the same number accept alike and lead to the same states -/
  state : ∀ i s s', d.state? i = some s → d'.state? i = some s' →
    s.accepting = s'.accepting ∧ s.row = s'.row

/-- Both conversions succeed, with automata of one shape, or both fail, and in the same
way; but it may be another production that is malformed. -/
inductive SameOutcome : Except Error Dfa → Except Error Dfa → Prop
  | ok {d d' : Dfa} : SameShape d d' → SameOutcome (.ok d) (.ok d')
  | unsupportedClass (c : GrammarClass) :
    SameOutcome (.error (.unsupportedClass c)) (.error (.unsupportedClass c))
  | malformedProduction (i i' : Nat) (p p' : Production) (reason reason' : ArcError) :
    SameOutcome (.error (.malformedProduction i p reason))
      (.error (.malformedProduction i' p' reason'))
  | tooManyStates (k : Nat) : SameOutcome (.error (.tooManyStates k)) (.error (.tooManyStates k))

variable {n m : Nfa} {R : Nat → Nat → Prop} {found found' : Numbering (SortedSet Nat)}
  {set set' : SortedSet Nat}

/-- Sets that match get states that do not differ, as far as the sets behind them are
numbered alike. -/
theorem stateOfSubset_matches (h : n.Twins m R)
    (hpair : Numbering.Paired (n.Matches m R) found found') (hset : n.Matches m R set set') :
    (n.stateOfSubset found set).accepting = (m.stateOfSubset found' set').accepting ∧
      (n.stateOfSubset found set).row = (m.stateOfSubset found' set').row := by
  refine ⟨decide_eq_decide.mpr (h.accepting_iff hset), ?_⟩
  have hplace : ∀ c ∈ n.alphabet, found.placeOf (n.step set c) = found'.placeOf (m.step set' c) :=
    fun c _ => hpair.placeOf_eq h.biUnique_matches (h.matches_step hset c)
  show Row.tabulate n.alphabet _ = Row.tabulate m.alphabet _
  rw [Row.tabulate_congr hplace, h.alphabet]

theorem sameShape_ofSubsets (h : n.Twins m R)
    (hpair : Numbering.Paired (n.Matches m R) found found') {hpos hpos'} :
    SameShape (ofSubsets n found hpos) (ofSubsets m found' hpos') := by
  have hstate {n : Nfa} {found : Numbering (SortedSet Nat)} {hpos} (i : Nat) :
      (ofSubsets n found hpos).state? i = (found.get? i).map (n.stateOfSubset found) :=
    Array.getElem?_map
  refine ⟨h.alphabet, ?_, fun i s s' hs hs' => ?_⟩
  · show (found.elements.map _).size = (found'.elements.map _).size
    rw [Array.size_map, Array.size_map]
    exact hpair.size_eq
  · rw [hstate, Option.map_eq_some_iff] at hs hs'
    obtain ⟨set, hset, rfl⟩ := hs
    obtain ⟨set', hset', rfl⟩ := hs'
    obtain ⟨set'', hset'', hmatches⟩ := hpair.exists_of_get? hset
    obtain rfl : set' = set'' := Option.some.inj (hset'.symm.trans hset'')
    exact stateOfSubset_matches h hpair hmatches

/-- Twin automata become deterministic automata of one shape, or both become too
large. -/
theorem sameOutcome_ofNfaWith (h : n.Twins m R) (options : Options) :
    SameOutcome (ofNfaWith n options) (ofNfaWith m options) := by
  unfold ofNfaWith
  split
  · exact .ok (sameShape_ofSubsets h (h.paired_subsets none))
  · rename_i k _
    have hpair := h.paired_subsets (some k)
    simp only [← hpair.size_eq]
    split
    · exact .tooManyStates k
    · exact .ok (sameShape_ofSubsets h hpair)

end Dfa

end GrammarAutomata
