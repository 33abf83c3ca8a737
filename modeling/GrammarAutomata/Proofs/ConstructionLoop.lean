import GrammarAutomata.Proofs.SubsetConstruction

/-!
# The subset construction as a loop

A set is numbered when reading first leads to it, but it gets its state later, when
the construction has come to it, and then with the numbers that have been given out so
far. A limit is looked at before each new number, and the set that would be one too
many ends the construction (`Nfa.Construction`). Nothing else makes it end; still it
does, and what it ends with is what the search made of the same sets, which looks at
the limit less often (`Dfa.determinizes_iff`).
-/

namespace GrammarAutomata

namespace Nfa

/-! ## The loop -/

/-- Number a set, unless it is known or would be one too many. -/
def discover (limit : Option Nat) (known : Numbering (SortedSet Nat)) (set : SortedSet Nat) :
    Except Error (Numbering (SortedSet Nat)) :=
  if set ∈ known then .ok known
  else match limit with
    | none => .ok (known.add set)
    | some k => if k ≤ known.size then .error (.tooManyStates k) else .ok (known.add set)

/-- Number several sets, in order. -/
def discoverAll (limit : Option Nat) (known : Numbering (SortedSet Nat))
    (sets : List (SortedSet Nat)) : Except Error (Numbering (SortedSet Nat)) :=
  sets.foldlM (discover limit) known

/-- The sets `known` are numbered, and the first of them have their `states`. A round
takes the first set that has none, numbers those behind it that are new, and adds its
state. The loop is over when every set has a state, or when there are too many sets. -/
inductive Construction (n : Nfa) (limit : Option Nat) :
    Numbering (SortedSet Nat) → Array DfaState → Except Error (Array DfaState) → Prop
  | stop {known : Numbering (SortedSet Nat)} {states : Array DfaState} :
    known.get? states.size = none → Construction n limit known states (.ok states)
  | cut {known : Numbering (SortedSet Nat)} {states : Array DfaState} {set : SortedSet Nat}
      {e : Error} : known.get? states.size = some set →
    discoverAll limit known (n.subsetSpace.succ set) = .error e →
    Construction n limit known states (.error e)
  | round {known more : Numbering (SortedSet Nat)} {states : Array DfaState}
      {set : SortedSet Nat} {outcome : Except Error (Array DfaState)} :
    known.get? states.size = some set →
    discoverAll limit known (n.subsetSpace.succ set) = .ok more →
    Construction n limit more (states.push (n.stateOfSubset more set)) outcome →
    Construction n limit known states outcome

/-- The construction from the beginning: the first set is the one in which reading
begins, and it may be one too many already. -/
inductive Determinizes (n : Nfa) (limit : Option Nat) : Except Error (Array DfaState) → Prop
  | cut {e : Error} : discoverAll limit .empty [n.start] = .error e →
    Determinizes n limit (.error e)
  | start {known : Numbering (SortedSet Nat)} {outcome : Except Error (Array DfaState)} :
    discoverAll limit .empty [n.start] = .ok known → Construction n limit known #[] outcome →
    Determinizes n limit outcome

variable {n : Nfa} {limit : Option Nat} {known found : Numbering (SortedSet Nat)}
  {states : Array DfaState} {set : SortedSet Nat} {sets : List (SortedSet Nat)}
  {outcome outcome' : Except Error (Array DfaState)} {k : Nat}

/-- There is one way to go on. -/
theorem Construction.unique (h : Construction n limit known states outcome)
    (h' : Construction n limit known states outcome') : outcome = outcome' := by
  induction h generalizing outcome' with
  | stop hnone =>
    cases h' with
    | stop => rfl
    | cut hset => cases hnone.symm.trans hset
    | round hset => cases hnone.symm.trans hset
  | cut hset herror =>
    cases h' with
    | stop hnone => cases hnone.symm.trans hset
    | cut hset' herror' =>
      cases hset.symm.trans hset'
      cases herror.symm.trans herror'
      rfl
    | round hset' hmore =>
      cases hset.symm.trans hset'
      cases herror.symm.trans hmore
  | round hset hmore _ ih =>
    cases h' with
    | stop hnone => cases hnone.symm.trans hset
    | cut hset' herror =>
      cases hset.symm.trans hset'
      cases herror.symm.trans hmore
    | round hset' hmore' h' =>
      cases hset.symm.trans hset'
      cases hmore.symm.trans hmore'
      exact ih h'

theorem Determinizes.unique (h : Determinizes n limit outcome)
    (h' : Determinizes n limit outcome') : outcome = outcome' := by
  cases h with
  | cut herror =>
    cases h' with
    | cut herror' => cases herror.symm.trans herror'; rfl
    | start hknown => cases herror.symm.trans hknown
  | start hknown h =>
    cases h' with
    | cut herror => cases herror.symm.trans hknown
    | start hknown' h' =>
      cases hknown.symm.trans hknown'
      exact h.unique h'

/-! ## Numbering sets -/

theorem discover_none : discover none known set = .ok (known.add set) := by
  rw [discover]
  split
  · rename_i hmem
    rw [Numbering.add_of_mem hmem]
  · rfl

/-- What is known is never too many. -/
theorem discover_some (h : known.size ≤ k) : discover (some k) known set =
    if (known.add set).size ≤ k then .ok (known.add set) else .error (.tooManyStates k) := by
  rw [discover]
  split
  · rename_i hmem
    rw [Numbering.add_of_mem hmem, if_pos h]
  · rename_i hnot
    rw [Numbering.size_add_of_not_mem hnot]
    by_cases hk : k ≤ known.size
    · rw [if_neg (Nat.not_le.mpr (Nat.lt_succ_of_le hk))]
      exact if_pos hk
    · have hlt : known.size + 1 ≤ k := Nat.lt_of_not_le hk
      rw [if_pos hlt]
      exact if_neg hk

theorem discoverAll_none : discoverAll none known sets = .ok (known.addAll sets) := by
  induction sets generalizing known with
  | nil => rfl
  | cons set sets ih =>
    rw [discoverAll, List.foldlM_cons, discover_none]
    exact ih

/-- Several sets are too many if one of them is, and then all that come after it are
left out. -/
theorem discoverAll_some (sets : List (SortedSet Nat)) (h : known.size ≤ k) :
    discoverAll (some k) known sets = if (known.addAll sets).size ≤ k then .ok (known.addAll sets)
      else .error (.tooManyStates k) := by
  induction sets generalizing known with
  | nil => exact (if_pos h).symm
  | cons set sets ih =>
    rw [discoverAll, List.foldlM_cons, discover_some h]
    by_cases hset : (known.add set).size ≤ k
    · rw [if_pos hset]
      exact ih hset
    · have hall : ¬ (known.addAll (set :: sets)).size ≤ k := fun hle =>
        hset (Nat.le_trans (Numbering.size_le_size_addAll sets) hle)
      rw [if_neg hset, if_neg hall]
      rfl

theorem discoverAll_of_size_le (h : ∀ k ∈ limit, (known.addAll sets).size ≤ k) :
    discoverAll limit known sets = .ok (known.addAll sets) := by
  cases limit with
  | none => exact discoverAll_none
  | some k =>
    have hk : (known.addAll sets).size ≤ k := h k rfl
    rw [discoverAll_some sets (Nat.le_trans (Numbering.size_le_size_addAll sets) hk), if_pos hk]

/-! ## Where the loop ends -/

/-- Once the sets behind it are numbered, the state of a set does not depend on what
else will be. -/
theorem stateOfSubset_eq (hsucc : ∀ c ∈ n.alphabet, n.step set c ∈ known)
    (hkeep : ∀ i s, known.get? i = some s → found.get? i = some s) :
    n.stateOfSubset known set = n.stateOfSubset found set := by
  have hrow : Row.tabulate n.alphabet (fun c => known.placeOf (n.step set c)) =
      Row.tabulate n.alphabet fun c => found.placeOf (n.step set c) :=
    Row.tabulate_congr fun c hc => (Numbering.placeOf_eq_of_get? (hsucc c hc) hkeep).symm
  rw [stateOfSubset, hrow]
  rfl

/-- A round leaves behind it the states of all sets that it has gone through, as they
are in the end. -/
theorem construction_of_rounds {next rounds : Nat}
    (h : Space.Rounds n.subsetSpace.succ known next rounds found)
    (hlimit : ∀ k ∈ limit, found.size ≤ k) (hsize : states.size = next)
    (hstates : ∀ i, i < next → states[i]? = (found.get? i).map (n.stateOfSubset found)) :
    Construction n limit known states (.ok (found.elements.map (n.stateOfSubset found))) := by
  induction h generalizing states with
  | @stop known next hnone =>
    subst hsize
    have hall : states = known.elements.map (n.stateOfSubset known) := by
      refine Array.ext_getElem? fun i => ?_
      rw [Array.getElem?_map]
      rcases Nat.lt_or_ge i states.size with hi | hi
      · exact hstates i hi
      · have hle : known.elements.size ≤ i :=
          Nat.le_trans (Array.getElem?_eq_none_iff.mp hnone) hi
        rw [Array.getElem?_eq_none hi, Array.getElem?_eq_none hle]
        rfl
    rw [← hall]
    exact .stop hnone
  | @round known found next rounds set hset hrounds ih =>
    subst hsize
    have hkeep : ∀ i s, (known.addAll (n.subsetSpace.succ set)).get? i = some s →
        found.get? i = some s := fun _ _ hs => hrounds.get?_of_eq_some hs
    -- the row names sets that have just been numbered, and their numbers stay
    have hstate : n.stateOfSubset (known.addAll (n.subsetSpace.succ set)) set =
        n.stateOfSubset found set := by
      refine stateOfSubset_eq (fun c hc => ?_) hkeep
      exact Numbering.mem_addAll.mpr (.inl (List.mem_map.mpr ⟨c, hc, rfl⟩))
    have hmore : discoverAll limit known (n.subsetSpace.succ set) =
        .ok (known.addAll (n.subsetSpace.succ set)) :=
      discoverAll_of_size_le fun k hk => Nat.le_trans hrounds.size_le (hlimit k hk)
    refine .round hset hmore (ih hlimit (Array.size_push _) fun i hi => ?_)
    rw [Array.getElem?_push]
    split
    · rename_i heq
      rw [heq, hkeep _ _ (Numbering.get?_addAll_of_eq_some hset), hstate]
      rfl
    · rename_i hne
      exact hstates i (Nat.lt_of_le_of_ne (Nat.le_of_lt_succ hi) hne)

/-- The search takes rounds without a limit. -/
theorem exists_rounds_subsets (n : Nfa) : ∃ rounds, Space.Rounds n.subsetSpace.succ
    (Numbering.empty.addAll [n.start]) 0 rounds (n.subsets none) := by
  obtain ⟨rounds, _, h⟩ := Space.rounds_explore n.mem_subsetSpace_start
  exact ⟨rounds, h⟩

/-- As long as there are not too many sets, the rounds are those of the loop without a
limit; since that comes to more sets than the limit, in some round there are too
many. -/
theorem construction_of_lt_size {next rounds : Nat}
    (h : Space.Rounds n.subsetSpace.succ known next rounds found) (hknown : known.size ≤ k)
    (hk : k < found.size) (hsize : states.size = next) :
    Construction n (some k) known states (.error (.tooManyStates k)) := by
  induction h generalizing states with
  | stop => exact absurd hknown (Nat.not_le.mpr hk)
  | @round known found next rounds set hset hrounds ih =>
    subst hsize
    have hmore := discoverAll_some (n.subsetSpace.succ set) hknown
    -- the round is cut, or it is that of the loop without a limit
    by_cases hle : (known.addAll (n.subsetSpace.succ set)).size ≤ k
    · rw [if_pos hle] at hmore
      exact .round hset hmore (ih hle hk (Array.size_push _))
    · rw [if_neg hle] at hmore
      exact .cut hset hmore

end Nfa

namespace Dfa

variable {n : Nfa} {limit : Option Nat} {options : Options} {k : Nat}

/-- Within the limit the loop ends with the states of the automaton. -/
theorem determinizes_of_size_le (h : ∀ k ∈ limit, (ofNfa n).size ≤ k) :
    n.Determinizes limit (.ok (ofNfa n).states) := by
  rw [size_ofNfa] at h
  obtain ⟨rounds, hrounds⟩ := n.exists_rounds_subsets
  refine .start (Nfa.discoverAll_of_size_le fun k hk => Nat.le_trans hrounds.size_le (h k hk)) ?_
  exact Nfa.construction_of_rounds hrounds h rfl fun i hi => absurd hi (Nat.not_lt_zero i)

/-- Beyond the limit it ends with an error. -/
theorem determinizes_of_lt_size (h : k < (ofNfa n).size) :
    n.Determinizes (some k) (.error (.tooManyStates k)) := by
  rw [size_ofNfa] at h
  obtain ⟨rounds, hrounds⟩ := n.exists_rounds_subsets
  have hempty : (Numbering.empty : Numbering (SortedSet Nat)).size ≤ k := Nat.zero_le k
  have hstart := Nfa.discoverAll_some [n.start] hempty
  by_cases hle : (Numbering.empty.addAll [n.start]).size ≤ k
  · rw [if_pos hle] at hstart
    exact .start hstart (Nfa.construction_of_lt_size hrounds hle h rfl)
  · rw [if_neg hle] at hstart
    exact .cut hstart

/-- The loop ends, and with what is made of the sets that the search finds. -/
theorem determinizes_iff {outcome : Except Error (Array DfaState)} :
    n.Determinizes options.maxDfaStates outcome ↔ outcome = (ofNfaWith n options).map states := by
  -- there is one outcome at most, so it is enough that the loop can end with this one
  have hends : n.Determinizes options.maxDfaStates ((ofNfaWith n options).map states) := by
    cases hmax : options.maxDfaStates with
    | none =>
      rw [ofNfaWith_of_none hmax]
      exact determinizes_of_size_le nofun
    | some k =>
      rcases Nat.lt_or_ge k (ofNfa n).size with hsize | hsize
      · rw [ofNfaWith_of_lt_size hmax hsize]
        exact determinizes_of_lt_size hsize
      · rw [ofNfaWith_of_size_le hmax hsize]
        exact determinizes_of_size_le fun j hj => Option.mem_some_iff.mp hj ▸ hsize
  refine ⟨?_, ?_⟩
  · intro h
    exact h.unique hends
  · rintro rfl
    exact hends

end Dfa

end GrammarAutomata
