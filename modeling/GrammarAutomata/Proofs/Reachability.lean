import GrammarAutomata.Dfa.Reachable
import GrammarAutomata.Dfa.Run

/-!
# Reachable states are the ends of runs

The search for reachable states looks at rows only, not at symbols. What it meets are
nevertheless exactly the states that some run from state 0 ends in, whether they exist
or not (`Dfa.mem_found_iff`); where all of them exist there is an answer, and it is the
set of these (`Dfa.exists_reachable?`).

The search can also be made with a queue: a state that is met for the first time joins it,
and the states in the queue are looked at one after the other, until the queue is empty or
a state is not there (`Dfa.Sweeps`). A state is met before it is looked at, so one that does
not exist may wait for long. The queue holds at all times the states that have been met, in
order, without those that have been looked at (`Survey.waiting`), and it ends empty unless one
of them does not exist (`Dfa.exists_sweeps`).
-/

namespace GrammarAutomata.Dfa

variable {d : Dfa} {p q : Nat} {w : Word} {known : Numbering Nat}

/-- A row names the states that its symbols lead to. -/
theorem mem_successors_iff : q ∈ d.successors p ↔
    ∃ s c, d.state? p = some s ∧ s.row.get? c = some q := by
  cases hs : d.state? p with
  | none => simp [successors, hs]
  | some s =>
    simp only [successors, hs]
    refine ⟨?_, ?_⟩
    · intro hq
      obtain ⟨⟨c, r⟩, he, rfl⟩ := List.mem_map.mp hq
      exact ⟨s, c, rfl, SortedMap.mem_entries_iff.mp he⟩
    · rintro ⟨s', c, hs', hc⟩
      obtain rfl := Option.some.inj hs'
      exact List.mem_map.mpr ⟨(c, q), SortedMap.mem_entries_iff.mpr hc, rfl⟩

theorem mem_met_zero (d : Dfa) : ∀ q ∈ [0], d.met.Mem q := by
  intro q hq
  obtain rfl := List.mem_singleton.mp hq
  exact List.mem_cons_self

/-- Everything that the search meets, existing or not. -/
def found (d : Dfa) : Numbering Nat := d.met.explore none [0] d.mem_met_zero

theorem exists_run_of_mem_found : ∀ q ∈ d.found, ∃ w, d.Run 0 w q := by
  refine Space.explore_induction _ (fun q hq => ?_) (fun p q ⟨w, hrun⟩ hq => ?_)
  · obtain rfl := List.mem_singleton.mp hq
    exact ⟨[], .nil 0⟩
  · obtain ⟨s, c, hs, hc⟩ := mem_successors_iff.mp hq
    exact ⟨w ++ [c], hrun.append (.cons hs hc (.nil q))⟩

/-- A run from what has been met never leaves it. -/
theorem mem_found_of_run (hp : p ∈ d.found) (h : d.Run p w q) : q ∈ d.found := by
  induction h with
  | nil => exact hp
  | cons hs hc _ ih =>
    exact ih (Space.explore_closed _ hp (mem_successors_iff.mpr ⟨_, _, hs, hc⟩))

theorem mem_found_iff : q ∈ d.found ↔ ∃ w, d.Run 0 w q :=
  ⟨exists_run_of_mem_found q, fun ⟨_, h⟩ =>
    mem_found_of_run (Space.mem_explore_of_mem _ List.mem_cons_self) h⟩

/-- Where every run ends in a state that exists, the reachable states are the ends of
runs. -/
theorem exists_reachable? (h : ∀ w q, d.Run 0 w q → q < d.size) :
    ∃ states, d.reachable? = some states ∧ ∀ q, q ∈ states ↔ ∃ w, d.Run 0 w q := by
  have hall : ∀ q ∈ d.found.toList, q < d.size := by
    intro q hq
    obtain ⟨w, hrun⟩ := exists_run_of_mem_found q (Numbering.mem_toList.mp hq)
    exact h w q hrun
  refine ⟨.ofList d.found.toList, if_pos hall, fun q => ?_⟩
  rw [SortedSet.mem_ofList, Numbering.mem_toList, mem_found_iff]

theorem state?_eq_none_iff : d.state? q = none ↔ d.size ≤ q := Array.getElem?_eq_none_iff

/-- What has been met is the answer if all of it exists. -/
def answer? (d : Dfa) (known : Numbering Nat) : Option (SortedSet Nat) :=
  if ∀ q ∈ known.toList, q < d.size then some (.ofList known.toList) else none

theorem reachable?_eq_answer? (d : Dfa) : d.reachable? = d.answer? d.found := rfl

theorem answer?_eq_none (hq : q ∈ known) (hnone : d.state? q = none) : d.answer? known = none := by
  refine if_neg fun hall => ?_
  exact Nat.not_lt.mpr (state?_eq_none_iff.mp hnone) (hall q (Numbering.mem_toList.mpr hq))

/-- The same, where no run leads to a state that does not exist. -/
theorem exists_reachable?_of_not_missing (h : ¬ ∃ w q, d.Run 0 w q ∧ d.state? q = none) :
    ∃ states, d.reachable? = some states ∧ ∀ q, q ∈ states ↔ ∃ w, d.Run 0 w q := by
  refine exists_reachable? fun w q hrun => Nat.lt_of_not_le fun hle => h ⟨w, q, hrun, ?_⟩
  exact state?_eq_none_iff.mpr hle

/-- There is no answer if and only if some run leads to a state that does not exist. -/
theorem reachable?_eq_none_iff :
    d.reachable? = none ↔ ∃ w q, d.Run 0 w q ∧ d.state? q = none := by
  refine ⟨fun hnone => Classical.byContradiction fun hmissing => ?_, ?_⟩
  · obtain ⟨states, hstates, _⟩ := exists_reachable?_of_not_missing hmissing
    cases hnone.symm.trans hstates
  · rintro ⟨w, q, hrun, hq⟩
    rw [reachable?_eq_answer?]
    exact answer?_eq_none (mem_found_iff.mpr ⟨w, hrun⟩) hq

end GrammarAutomata.Dfa

namespace GrammarAutomata

/-! ## The queue -/

/-- How far a search with a queue has come. -/
structure Survey where
  /-- the states that have been met -/
  met : SortedSet Nat
  /-- those of them that have not been looked at, the next one first -/
  queue : List Nat

namespace Survey

variable {known : Numbering Nat} {next q : Nat}

/-- Meet a state. A new one joins the queue. -/
def meet (s : Survey) (q : Nat) : Survey :=
  if q ∈ s.met then s else ⟨insert q s.met, s.queue ++ [q]⟩

/-- The states that have been met wait from number `next` on. -/
def waiting (known : Numbering Nat) (next : Nat) : Survey :=
  ⟨.ofList known.toList, known.toList.drop next⟩

/-- A state that is met for the first time waits behind all others. -/
theorem meet_waiting (hnext : next ≤ known.size) :
    (waiting known next).meet q = waiting (known.add q) next := by
  by_cases hq : q ∈ known
  · rw [Numbering.add_of_mem hq]
    exact if_pos (SortedSet.mem_ofList.mpr (Numbering.mem_toList.mpr hq))
  · have htoList : (known.add q).toList = known.toList ++ [q] := by
      rw [Numbering.toList, Numbering.elements_add_of_not_mem hq, Array.toList_push]
      rfl
    have hnot : q ∉ (waiting known next).met := fun hmem =>
      hq (Numbering.mem_toList.mp (SortedSet.mem_ofList.mp hmem))
    have hmet : insert q (SortedSet.ofList known.toList) =
        SortedSet.ofList (known.toList ++ [q]) :=
      SortedSet.ext fun r => by simp [or_comm]
    rw [← Numbering.length_toList] at hnext
    rw [meet, if_neg hnot, waiting, waiting, htoList, ← hmet,
      List.drop_append_of_le_length hnext]

theorem foldl_meet_waiting {targets : List Nat} (hnext : next ≤ known.size) :
    targets.foldl meet (waiting known next) = waiting (known.addAll targets) next := by
  induction targets generalizing known with
  | nil => rfl
  | cons q targets ih =>
    rw [List.foldl_cons, meet_waiting hnext]
    exact ih (Nat.le_trans hnext (Numbering.size_le_size_addAll [q]))

/-- Of the states that wait the first is next, and behind it wait the others. -/
theorem waiting_of_get? (hq : known.get? next = some q) :
    waiting known next = ⟨(waiting known next).met, q :: (waiting known (next + 1)).queue⟩ := by
  have hget : known.toList[next]? = some q := Array.getElem?_toList.trans hq
  obtain ⟨hlt, hq⟩ := List.getElem?_eq_some_iff.mp hget
  rw [waiting, List.drop_eq_getElem_cons hlt, hq]
  rfl

theorem waiting_of_get?_eq_none (hnone : known.get? next = none) :
    waiting known next = ⟨.ofList known.toList, []⟩ := by
  have hle : known.size ≤ next := Array.getElem?_eq_none_iff.mp hnone
  rw [← Numbering.length_toList] at hle
  rw [waiting, List.drop_eq_nil_of_le hle]

/-- At first one state has been met. -/
theorem waiting_start : waiting (Numbering.empty.addAll [q]) 0 = ⟨{q}, [q]⟩ := by
  have hempty : waiting Numbering.empty 0 = ⟨∅, []⟩ :=
    (waiting_of_get?_eq_none rfl).trans (congrArg (Survey.mk · [])
      (SortedSet.eq_empty_iff.mpr fun _ hr => List.not_mem_nil (SortedSet.mem_ofList.mp hr)))
  rw [← foldl_meet_waiting (Nat.zero_le _), hempty]
  rfl

end Survey

namespace Dfa

variable {d : Dfa} {s : Survey} {q next rounds rounds' : Nat} {known found : Numbering Nat}
  {outcome outcome' : Option (SortedSet Nat)}

/-- The loop with the number of its rounds and its outcome: as long as a state waits, it is
taken from the queue and looked at, and the states that its row names are met. There is no
outcome but `none` if it does not exist. -/
inductive Sweeps (d : Dfa) : Survey → Nat → Option (SortedSet Nat) → Prop
  | stop {met : SortedSet Nat} : Sweeps d ⟨met, []⟩ 0 (some met)
  | fail {met : SortedSet Nat} {q : Nat} {queue : List Nat} : d.state? q = none →
    Sweeps d ⟨met, q :: queue⟩ 1 none
  | round {met : SortedSet Nat} {q rounds : Nat} {queue : List Nat} {state : DfaState}
      {outcome : Option (SortedSet Nat)} : d.state? q = some state →
    Sweeps d (state.row.targets.foldl Survey.meet ⟨met, queue⟩) rounds outcome →
    Sweeps d ⟨met, q :: queue⟩ (rounds + 1) outcome

/-- There is one way to go on. -/
theorem Sweeps.unique (h : d.Sweeps s rounds outcome) (h' : d.Sweeps s rounds' outcome') :
    rounds = rounds' ∧ outcome = outcome' := by
  induction h generalizing rounds' outcome' with
  | stop => cases h'; exact ⟨rfl, rfl⟩
  | fail hnone =>
    cases h' with
    | fail => exact ⟨rfl, rfl⟩
    | round hsome => cases hnone.symm.trans hsome
  | round hsome _ ih =>
    cases h' with
    | fail hnone => cases hnone.symm.trans hsome
    | round hsome' h' =>
      cases hsome.symm.trans hsome'
      obtain ⟨rfl, rfl⟩ := ih h'
      exact ⟨rfl, rfl⟩

/-- The states that have been looked at exist: those that have been met, up to number `next`. -/
def Looked (d : Dfa) (known : Numbering Nat) (next : Nat) : Prop :=
  ∀ i < next, ∀ q, known.get? i = some q → q < d.size

/-- One more that exists has been looked at, and more have been met. -/
theorem Looked.addAll (h : d.Looked known next) (hq : known.get? next = some q) (hlt : q < d.size)
    (targets : List Nat) : d.Looked (known.addAll targets) (next + 1) := by
  intro i hi r hr
  -- what was known has kept its number
  obtain ⟨p, hp⟩ :=
    Numbering.exists_get?_of_lt (Nat.lt_of_lt_of_le hi (Numbering.lt_size_of_get? hq))
  obtain rfl := Option.some.inj ((Numbering.get?_addAll_of_eq_some hp).symm.trans hr)
  rcases Nat.lt_or_eq_of_le (Nat.le_of_lt_succ hi) with hi | rfl
  · exact h i hi p hp
  · obtain rfl := Option.some.inj (hq.symm.trans hp)
    exact hlt

/-- When all have been looked at, they are the answer. -/
theorem Looked.answer? (h : d.Looked known next) (hnone : known.get? next = none) :
    d.answer? known = some (.ofList known.toList) := by
  refine if_pos fun q hq => ?_
  obtain ⟨i, hi⟩ := Numbering.mem_iff_get?.mp (Numbering.mem_toList.mp hq)
  exact h i (Numbering.lt_of_get?_eq_none hnone hi) q hi

/-- The loop takes the rounds of the search, up to the first that looks at a state that does
not exist. -/
theorem exists_sweeps (h : Space.Rounds d.successors known next rounds found)
    (hlooked : d.Looked known next) :
    ∃ n ≤ rounds, d.Sweeps (.waiting known next) n (d.answer? found) := by
  induction h with
  | @stop known next hnone =>
    rw [hlooked.answer? hnone, Survey.waiting_of_get?_eq_none hnone]
    exact ⟨0, Nat.le_refl 0, .stop⟩
  | @round known found next rounds q hq hrest ih =>
    rw [Survey.waiting_of_get? hq]
    cases hstate : d.state? q with
    | none =>
      -- what is met stays met, so this state is among those that are found in the end
      have hkept := hrest.get?_of_eq_some (Numbering.get?_addAll_of_eq_some hq)
      rw [answer?_eq_none (Numbering.mem_of_get? hkept) hstate]
      exact ⟨1, Nat.le_add_left 1 rounds, .fail hstate⟩
    | some state =>
      have hlt : q < d.size := (Array.getElem?_eq_some_iff.mp hstate).1
      have hsucc : d.successors q = state.row.targets := by rw [successors, hstate]
      obtain ⟨n, hn, hsweeps⟩ := ih (hlooked.addAll hq hlt _)
      rw [hsucc, ← Survey.foldl_meet_waiting (Numbering.lt_size_of_get? hq)] at hsweeps
      exact ⟨n + 1, Nat.succ_le_succ hn, .round hstate hsweeps⟩

/-- **The reachable states are the ends of runs.** The loop always ends, after at most one
round for each transition and one more, and there is one way it can go. There is no answer
if and only if a run from state 0, over whatever symbols the rows have, leads to a state that
does not exist; otherwise the answer is the set of the states in which runs end. -/
theorem reachable_states_end_runs (d : Dfa) :
    (∃ rounds ≤ d.targets.length + 1, d.Sweeps ⟨{0}, [0]⟩ rounds d.reachable?) ∧
    (∀ rounds outcome, d.Sweeps ⟨{0}, [0]⟩ rounds outcome → outcome = d.reachable?) ∧
    (d.reachable? = none ↔ ∃ w q, d.Run 0 w q ∧ d.state? q = none) ∧
    ((¬ ∃ w q, d.Run 0 w q ∧ d.state? q = none) →
      ∃ states, d.reachable? = some states ∧ ∀ q, q ∈ states ↔ ∃ w, d.Run 0 w q) := by
  have hends : ∃ rounds ≤ d.targets.length + 1, d.Sweeps ⟨{0}, [0]⟩ rounds d.reachable? := by
    obtain ⟨rounds, hbound, hrounds⟩ := Space.rounds_explore d.mem_met_zero
    obtain ⟨n, hn, hsweeps⟩ := exists_sweeps hrounds fun i hi => absurd hi (Nat.not_lt_zero i)
    rw [Survey.waiting_start] at hsweeps
    exact ⟨n, Nat.le_trans hn hbound, hsweeps⟩
  refine ⟨hends, ?_, reachable?_eq_none_iff, ?_⟩
  · intro rounds outcome h
    obtain ⟨_, _, hsweeps⟩ := hends
    exact (h.unique hsweeps).2
  · exact exists_reachable?_of_not_missing

/-- An automaton over `a` and `b` that reads `z` as well, leads back to where it began, and has a
state to which no other leads; only this one leads to a state that does not exist. -/
def secluded : Dfa where
  states := #[⟨"p", ∅, false, .ofList [('a', 1), ('z', 3)]⟩, ⟨"q", ∅, true, .ofList [('b', 0)]⟩,
    ⟨"r", ∅, true, .ofList [('a', 7)]⟩, ⟨"s", ∅, true, .empty⟩]
  alphabet := .ofList ['a', 'b']
  size_pos := by decide

/-- One that comes to a state that does not exist by way of a symbol that is not in the
alphabet. -/
def unfinished : Dfa where
  states := #[⟨"p", ∅, false, .ofList [('a', 0), ('z', 1)]⟩, ⟨"q", ∅, true, .ofList [('a', 4)]⟩]
  alphabet := .ofList ['a']
  size_pos := by decide

/-- Three of the four states of the first are reachable; of the second there is no answer. -/
theorem reachable_states_end_runs_samples :
    ((¬ ∃ w q, secluded.Run 0 w q ∧ secluded.state? q = none) ∧
      secluded.reachable? = some (.ofList [0, 1, 3]) ∧
      ∀ q, q ∈ SortedSet.ofList [0, 1, 3] ↔ ∃ w, secluded.Run 0 w q) ∧
    (∃ rounds ≤ 5, unfinished.Sweeps ⟨{0}, [0]⟩ rounds none ∧ none = unfinished.reachable?) ∧
    ∃ w q, unfinished.Run 0 w q ∧ unfinished.state? q = none := by
  obtain ⟨_, _, hnone, hsome⟩ := reachable_states_end_runs secluded
  obtain ⟨⟨rounds, hle, hsweeps⟩, hunique, hnone', _⟩ := reachable_states_end_runs unfinished
  have hfound : secluded.reachable? = some (.ofList [0, 1, 3]) := by decide +kernel
  have hmissing : unfinished.reachable? = none := by decide +kernel
  refine ⟨?_, ?_, hnone'.mp hmissing⟩
  · have hno : ¬ ∃ w q, secluded.Run 0 w q ∧ secluded.state? q = none := fun hrun =>
      nomatch hfound.symm.trans (hnone.mpr hrun)
    obtain ⟨states, hstates, hmem⟩ := hsome hno
    obtain rfl := Option.some.inj (hfound.symm.trans hstates)
    exact ⟨hno, hfound, hmem⟩
  · have hbound : unfinished.targets.length + 1 ≤ 5 := by decide +kernel
    rw [hmissing] at hsweeps
    exact ⟨rounds, Nat.le_trans hle hbound, hsweeps, hunique rounds none hsweeps⟩

end Dfa

end GrammarAutomata
