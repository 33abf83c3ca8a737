import GrammarAutomata.Proofs.Listings
import GrammarAutomata.Proofs.Lookups

/-!
# Closures found with a stack

The closure of one state can be found without knowing beforehand how long that takes: take
a state from a stack, put it into the closure, put what is silent behind it on the stack,
and go on until the stack is empty (`Nfa.Unstacks`). States may lie on the stack several
times; what is in the closure is passed over. Between two rounds everything known is
reached silently, and what is silent behind the closure is known (`Nfa.Underway`), so the
closure that is found in the end is the right one. No transition is followed twice, so
there are not many rounds (`Nfa.exists_unstacks`).

The closure of several states is put together from those of single states, where a state
that is there already is passed over (`Nfa.gather?`). That does no harm, because what is
there is closed (`Nfa.gather?_eq`).
-/

namespace GrammarAutomata.Nfa

variable {n : Nfa} {source q r rounds rounds' : Nat} {closed targets : SortedSet Nat}
  {stack sources sources' done : List Nat} {outcome outcome' : Option (SortedSet Nat)}

/-! ## The stack -/

/-- What joins the stack when `targets` are silent behind a state that has joined `closed`.
The greatest comes to lie on top. -/
def fresh (closed targets : SortedSet Nat) : List Nat :=
  (targets.toList.filter (· ∉ closed)).reverse

/-- The loop with the number of its rounds and its outcome: as long as a state is on the
stack, it is taken off, and if it is not in the closure yet it joins it. There is no outcome
but `none` if a state does not exist. -/
inductive Unstacks (n : Nfa) : SortedSet Nat → List Nat → Nat → Option (SortedSet Nat) → Prop
  | stop {closed : SortedSet Nat} : Unstacks n closed [] 0 (some closed)
  | skip {closed : SortedSet Nat} {q rounds : Nat} {stack : List Nat}
      {outcome : Option (SortedSet Nat)} : q ∈ closed → Unstacks n closed stack rounds outcome →
    Unstacks n closed (q :: stack) (rounds + 1) outcome
  | fail {closed : SortedSet Nat} {q : Nat} {stack : List Nat} : q ∉ closed →
    n.targetsOf? q .epsilon = none → Unstacks n closed (q :: stack) 1 none
  | visit {closed targets : SortedSet Nat} {q rounds : Nat} {stack : List Nat}
      {outcome : Option (SortedSet Nat)} : q ∉ closed → n.targetsOf? q .epsilon = some targets →
    Unstacks n (insert q closed) (fresh (insert q closed) targets ++ stack) rounds outcome →
    Unstacks n closed (q :: stack) (rounds + 1) outcome

/-- There is one way to go on. -/
theorem Unstacks.unique (h : n.Unstacks closed stack rounds outcome)
    (h' : n.Unstacks closed stack rounds' outcome') : rounds = rounds' ∧ outcome = outcome' := by
  induction h generalizing rounds' outcome' with
  | stop => cases h'; exact ⟨rfl, rfl⟩
  | skip hq _ ih =>
    cases h' with
    | skip _ h' =>
      obtain ⟨rfl, rfl⟩ := ih h'
      exact ⟨rfl, rfl⟩
    | fail hnot => exact absurd hq hnot
    | visit hnot => exact absurd hq hnot
  | fail hnot hnone =>
    cases h' with
    | skip hq => exact absurd hq hnot
    | fail => exact ⟨rfl, rfl⟩
    | visit _ hsome => cases hnone.symm.trans hsome
  | visit hnot hsome _ ih =>
    cases h' with
    | skip hq => exact absurd hq hnot
    | fail _ hnone => cases hnone.symm.trans hsome
    | visit _ hsome' h' =>
      cases hsome.symm.trans hsome'
      obtain ⟨rfl, rfl⟩ := ih h'
      exact ⟨rfl, rfl⟩

/-! ## What is known -/

/-- The closure of `source` is under way: what is known are the states in `closed` and those
on the stack. -/
structure Underway (n : Nfa) (source : Nat) (closed : SortedSet Nat) (stack : List Nat) :
    Prop where
  /-- the state itself is known -/
  source_mem : source ∈ closed ∨ source ∈ stack
  /-- nothing is known but what is reached silently -/
  path : ∀ q, q ∈ closed ∨ q ∈ stack → n.Path source [] q
  /-- what is silent behind the closure is known -/
  covered : ∀ q ∈ closed, ∀ r, ⟨q, .epsilon, r⟩ ∈ n.transitions → r ∈ closed ∨ r ∈ stack

theorem underway_start (n : Nfa) (source : Nat) : n.Underway source ∅ [source] where
  source_mem := .inr List.mem_cons_self
  path q hq := by
    rcases hq with hq | hq
    · exact absurd hq (SortedSet.not_mem_empty q)
    · obtain rfl := List.mem_singleton.mp hq
      exact .nil q
  covered q hq := absurd hq (SortedSet.not_mem_empty q)

/-- A state that is passed over stays known. -/
theorem Underway.skip (h : n.Underway source closed (q :: stack)) (hq : q ∈ closed) :
    n.Underway source closed stack := by
  have hknown {r : Nat} (hr : r ∈ closed ∨ r ∈ q :: stack) : r ∈ closed ∨ r ∈ stack := by
    rcases hr with hr | hr
    · exact .inl hr
    · rcases List.mem_cons.mp hr with rfl | hr
      · exact .inl hq
      · exact .inr hr
  exact {
    source_mem := hknown h.source_mem
    path := fun r hr => h.path r (hr.imp_right (List.mem_cons_of_mem q))
    covered := fun p hp r hr => hknown (h.covered p hp r hr) }

/-- After a round that adds a state, what is silent behind it is known too. -/
theorem known_visit_iff :
    (r ∈ insert q closed ∨ r ∈ fresh (insert q closed) (n.targets q .epsilon) ++ stack) ↔
      (r ∈ closed ∨ r ∈ q :: stack) ∨ ⟨q, .epsilon, r⟩ ∈ n.transitions := by
  have hfresh : r ∈ fresh (insert q closed) (n.targets q .epsilon) ↔
      ⟨q, .epsilon, r⟩ ∈ n.transitions ∧ r ∉ insert q closed := by
    rw [fresh, List.mem_reverse, List.mem_filter, SortedSet.mem_toList, mem_targets,
      decide_eq_true_iff]
  rw [List.mem_append, hfresh, List.mem_cons, SortedSet.mem_insert]
  grind

theorem Underway.visit (h : n.Underway source closed (q :: stack)) :
    n.Underway source (insert q closed)
      (fresh (insert q closed) (n.targets q .epsilon) ++ stack) where
  source_mem := known_visit_iff.mpr (.inl h.source_mem)
  path r hr := by
    rcases known_visit_iff.mp hr with hr | hr
    · exact h.path r hr
    · exact (h.path q (.inr List.mem_cons_self)).append (.of_epsilon hr)
  covered p hp r hr := by
    rcases SortedSet.mem_insert.mp hp with rfl | hp
    · exact known_visit_iff.mpr (.inr hr)
    · exact known_visit_iff.mpr (.inl (h.covered p hp r hr))

/-- When nothing is left on the stack, the closure has been found. -/
theorem Underway.stop (h : n.Underway source closed []) : closed = n.epsilonClosure source := by
  have hnil {q : Nat} (hq : q ∈ closed ∨ q ∈ []) : q ∈ closed := hq.resolve_right List.not_mem_nil
  have hclosed : n.Closed closed := fun p hp q hq => hnil (h.covered p hp q hq)
  refine SortedSet.ext fun q => ?_
  rw [mem_epsilonClosure_iff]
  constructor
  · intro hq
    exact h.path q (.inl hq)
  · intro hpath
    exact hclosed.mem_of_path hpath (hnil h.source_mem)

/-! ## How long it takes -/

/-- The transitions that are still to be followed: those that read nothing and begin outside
of the closure. -/
def unfollowed (n : Nfa) (closed : SortedSet Nat) : List Transition :=
  n.transitions.filter fun t => t.label = .epsilon ∧ t.source ∉ closed

theorem mem_unfollowed {t : Transition} :
    t ∈ n.unfollowed closed ↔ t ∈ n.transitions ∧ t.label = .epsilon ∧ t.source ∉ closed := by
  rw [unfollowed, List.mem_filter, decide_eq_true_iff]

theorem length_unfollowed_empty (n : Nfa) :
    (n.unfollowed ∅).length = n.transitions.countP (·.label = .epsilon) := by
  rw [unfollowed, ← List.countP_eq_length_filter]
  exact List.countP_congr fun t _ => by simp

/-- For a state that joins the closure no more states join the stack than transitions are
followed. -/
theorem length_fresh_add_le (hq : q ∉ closed) :
    (fresh (insert q closed) (n.targets q .epsilon)).length +
      (n.unfollowed (insert q closed)).length ≤ (n.unfollowed closed).length := by
  have hnodup : ((n.targets q .epsilon).toList.map (fun r => (⟨q, .epsilon, r⟩ : Transition)) ++
      n.unfollowed (insert q closed)).Nodup := by
    refine List.nodup_append.mpr ⟨n.nodup_map_targets q .epsilon,
      n.nodup_transitions.filter _, fun s hs t ht heq => ?_⟩
    subst heq
    obtain ⟨r, _, rfl⟩ := List.mem_map.mp hs
    exact (mem_unfollowed.mp ht).2.2 (SortedSet.mem_insert.mpr (.inl rfl))
  have hsub : (n.targets q .epsilon).toList.map (fun r => (⟨q, .epsilon, r⟩ : Transition)) ++
      n.unfollowed (insert q closed) ⊆ n.unfollowed closed := by
    intro t ht
    rcases List.mem_append.mp ht with ht | ht
    · obtain ⟨r, hr, rfl⟩ := List.mem_map.mp ht
      exact mem_unfollowed.mpr ⟨mem_targets.mp hr, rfl, hq⟩
    · obtain ⟨hmem, hlabel, hsource⟩ := mem_unfollowed.mp ht
      exact mem_unfollowed.mpr
        ⟨hmem, hlabel, fun hclosed => hsource (SortedSet.mem_insert.mpr (.inr hclosed))⟩
  have hle := hnodup.length_le_of_subset hsub
  have hfilter : (fresh (insert q closed) (n.targets q .epsilon)).length ≤
      (n.targets q .epsilon).toList.length := by
    rw [fresh, List.length_reverse]
    exact List.length_filter_le ..
  rw [List.length_append, List.length_map] at hle
  omega

/-- The loop ends with the closure, after no more rounds than there are states on the stack
and transitions still to be followed. -/
theorem exists_unstacks (hsource : source < n.size) (h : n.Underway source closed stack) :
    ∃ rounds, rounds ≤ stack.length + (n.unfollowed closed).length ∧
      n.Unstacks closed stack rounds (some (n.epsilonClosure source)) := by
  induction hmeasure : stack.length + (n.unfollowed closed).length using Nat.strongRecOn
    generalizing closed stack with
  | ind measure ih =>
    subst hmeasure
    cases stack with
    | nil => exact ⟨0, Nat.zero_le _, h.stop ▸ .stop⟩
    | cons q stack =>
      rw [List.length_cons] at ih ⊢
      by_cases hq : q ∈ closed
      · obtain ⟨rounds, hle, hrounds⟩ := ih _ (by omega) (h.skip hq) rfl
        exact ⟨rounds + 1, by omega, .skip hq hrounds⟩
      · have hlt : q < n.size := (h.path q (.inr List.mem_cons_self)).lt_size hsource
        have hfresh := length_fresh_add_le (n := n) hq
        obtain ⟨rounds, hle, hrounds⟩ := ih _ (by rw [List.length_append]; omega) h.visit rfl
        rw [List.length_append] at hle
        exact ⟨rounds + 1, by omega, .visit hq (targetsOf?_eq hlt) hrounds⟩

/-! ## Several states -/

theorem closure_nil (n : Nfa) : n.closure [] = ∅ :=
  SortedSet.eq_empty_iff.mpr fun q hq => by
    obtain ⟨p, hp, _⟩ := mem_closure_iff.mp hq
    exact List.not_mem_nil hp

/-- The closure of several states holds what the closures of single ones hold. -/
theorem mem_closure_iff_exists :
    r ∈ n.closure sources ↔ ∃ q ∈ sources, r ∈ n.epsilonClosure q := by
  simp only [mem_closure_iff, mem_epsilonClosure_iff]

theorem closure_append (n : Nfa) (sources sources' : List Nat) :
    n.closure (sources ++ sources') = n.closure sources ∪ n.closure sources' :=
  SortedSet.ext fun q => by simp [mem_closure_iff, or_and_right, exists_or]

theorem closure_mono (h : ∀ q ∈ sources, q ∈ sources') :
    ∀ r ∈ n.closure sources, r ∈ n.closure sources' := by
  intro r hr
  obtain ⟨q, hq, hpath⟩ := mem_closure_iff.mp hr
  exact mem_closure_iff.mpr ⟨q, h q hq, hpath⟩

/-- The closure of a closed set adds nothing to it. -/
theorem closure_toList_of_closed (h : n.Closed closed) : n.closure closed.toList = closed :=
  SortedSet.ext fun r => by
    refine ⟨fun hr => ?_, fun hr => mem_closure_of_mem hr⟩
    obtain ⟨q, hq, hpath⟩ := mem_closure_iff.mp hr
    exact h.mem_of_path hpath hq

/-- Put the closure of a state into a set, unless the state is there already. -/
def join? (n : Nfa) (found : SortedSet Nat) (q : Nat) : Option (SortedSet Nat) :=
  if q ∈ found then some found else (n.closure? [q]).map (found ∪ ·)

/-- The closure of several states, one after the other. -/
def gather? (n : Nfa) (sources : List Nat) : Option (SortedSet Nat) := sources.foldlM n.join? ∅

theorem closure?_singleton (hq : q < n.size) : n.closure? [q] = some (n.epsilonClosure q) :=
  closure?_eq fun _ hp => List.mem_singleton.mp hp ▸ hq

/-- A state that is passed over would add nothing. -/
theorem join?_eq (hq : q < n.size) :
    n.join? (n.closure done) q = some (n.closure (done ++ [q])) := by
  rw [join?, closure_append]
  split
  · rename_i hmem
    refine congrArg some (SortedSet.ext fun r => ?_)
    rw [SortedSet.mem_union]
    refine ⟨.inl, fun hr => hr.elim id fun hr => ?_⟩
    exact closed_closure.mem_of_path (mem_epsilonClosure_iff.mp hr) hmem
  · rw [closure?_singleton hq]
    rfl

theorem gather?_eq (h : ∀ q ∈ sources, q < n.size) :
    n.gather? sources = some (n.closure sources) := by
  -- what has been gathered is the closure of the states gone through
  have hrest (done : List Nat) :
      sources.foldlM n.join? (n.closure done) = some (n.closure (done ++ sources)) := by
    induction sources generalizing done with
    | nil => rw [List.append_nil]; rfl
    | cons q sources ih =>
      obtain ⟨hq, h⟩ := List.forall_mem_cons.mp h
      rw [List.foldlM_cons, join?_eq hq]
      refine (ih h (done ++ [q])).trans ?_
      rw [List.append_assoc]
      rfl
  have hgather := hrest []
  rwa [closure_nil, List.nil_append] at hgather

/-! ## Closures -/

/-- **A closure holds what silent paths lead to.** With a stack the closure of a state that
exists is always found, in no more rounds than there are silent transitions and one more.
The closure of several states is what the closures of them all hold, although states are
passed over that are there already. So it depends neither on the order of the states nor on
how often they are named, it grows with them, and it is closed. -/
theorem closures_hold_silent_paths (n : Nfa) :
    (∀ q < n.size,
      (∃ rounds ≤ n.transitions.countP (·.label = .epsilon) + 1,
        n.Unstacks ∅ [q] rounds (n.closure? [q])) ∧
      (∀ rounds outcome, n.Unstacks ∅ [q] rounds outcome → outcome = n.closure? [q]) ∧
      n.closure? [q] = some (n.epsilonClosure q) ∧
      ∀ r, r ∈ n.epsilonClosure q ↔ n.Path q [] r) ∧
    (∀ sources : List Nat, (∀ q ∈ sources, q < n.size) →
      n.gather? sources = some (n.closure sources)) ∧
    (∀ sources r, r ∈ n.closure sources ↔ ∃ q ∈ sources, r ∈ n.epsilonClosure q) ∧
    (∀ sources sources' : List Nat, (∀ q, q ∈ sources ↔ q ∈ sources') →
      n.closure sources = n.closure sources') ∧
    (∀ sources sources' : List Nat, (∀ q ∈ sources, q ∈ sources') →
      ∀ r ∈ n.closure sources, r ∈ n.closure sources') ∧
    ∀ sources, n.closure (n.closure sources).toList = n.closure sources := by
  refine ⟨?_, ?_, ?_, ?_, ?_, ?_⟩
  · intro q hq
    have hclosure := closure?_singleton hq
    obtain ⟨rounds, hle, hrounds⟩ := exists_unstacks hq (n.underway_start q)
    rw [length_unfollowed_empty, List.length_singleton, Nat.add_comm] at hle
    rw [← hclosure] at hrounds
    refine ⟨⟨rounds, hle, hrounds⟩, ?_, hclosure, fun r => mem_epsilonClosure_iff⟩
    intro rounds' outcome h
    exact (h.unique hrounds).2
  · intro sources h
    exact gather?_eq h
  · intro sources r
    exact mem_closure_iff_exists
  · intro sources sources' h
    -- each closure is part of the other
    have hle := closure_mono (n := n) fun q hq => (h q).mp hq
    have hge := closure_mono (n := n) fun q hq => (h q).mpr hq
    exact SortedSet.ext fun r => ⟨hle r, hge r⟩
  · intro sources sources' h
    exact closure_mono h
  · intro sources
    exact closure_toList_of_closed closed_closure

/-- A cycle of silent transitions, and behind it a state from which one leads back to
itself. -/
def cyclic : Nfa :=
  .ofTransitions [.nonterminal 'S', .intermediate, .intermediate, .accept] {'a'} 0 {3}
    [⟨0, .epsilon, 1⟩, ⟨1, .epsilon, 2⟩, ⟨2, .epsilon, 0⟩, ⟨2, .symbol 'a', 3⟩, ⟨3, .epsilon, 3⟩]
    (by decide) (by decide) (by decide)

/-- The closure of a state on the cycle, and closures of several states, some of them named
twice. -/
theorem closures_hold_silent_paths_cyclic :
    ((∃ rounds ≤ 5, cyclic.Unstacks ∅ [1] rounds (some (.ofList [0, 1, 2]))) ∧
      ∀ r, r ∈ cyclic.epsilonClosure 1 ↔ cyclic.Path 1 [] r) ∧
    cyclic.gather? [1, 3, 0, 1] = some (.ofList [0, 1, 2, 3]) ∧
    cyclic.closure [3, 1, 3] = cyclic.closure [1, 3] ∧
    ∀ r ∈ cyclic.closure [1], r ∈ cyclic.closure [3, 1] := by
  obtain ⟨hone, hseveral, _, horder, hmono, _⟩ := closures_hold_silent_paths cyclic
  obtain ⟨⟨rounds, hle, hrounds⟩, _, hfound, hpath⟩ := hone 1 (by decide +kernel)
  have hclosure : cyclic.epsilonClosure 1 = .ofList [0, 1, 2] := by decide +kernel
  have hgather : cyclic.closure [1, 3, 0, 1] = .ofList [0, 1, 2, 3] := by decide +kernel
  have hcount : cyclic.transitions.countP (·.label = .epsilon) + 1 = 5 := by decide +kernel
  rw [hfound, hclosure] at hrounds
  refine ⟨⟨⟨rounds, hcount ▸ hle, hrounds⟩, hpath⟩, ?_, ?_, ?_⟩
  · rw [← hgather]
    exact hseveral [1, 3, 0, 1] (by decide +kernel)
  · exact horder [3, 1, 3] [1, 3] (by simp)
  · exact hmono [1] [3, 1] (by simp)

end GrammarAutomata.Nfa
