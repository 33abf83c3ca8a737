import GrammarAutomata.Proofs.ConstructionLoop
import GrammarAutomata.Proofs.Lookups

/-!
# The subset construction with a queue

A set that gets a number joins a queue, and the construction goes on until the queue is
empty. In a round it takes the first number from the queue, looks the set up that has this
number, finds the name of the set and where each symbol leads from it, and adds its state
(`Nfa.process?`). Any of this could fail, and the loop could go on forever (`Nfa.Drains`,
`Nfa.Constructs`).

It does neither, because the numbers in the queue are at all times those from the number of
states on, in order (`Arena.waiting`). A round of this loop is therefore a round of the
construction (`Nfa.process?_eq`), and the automaton that comes out in the end is the one
that the search finds (`Nfa.constructs_iff`).
-/

namespace GrammarAutomata

/-! ## The queue -/

/-- The sets that have a number, and the numbers of those that have no state yet. -/
structure Arena where
  /-- the sets, in the order in which they were found -/
  known : Numbering (SortedSet Nat)
  /-- the numbers, the next one first -/
  queue : List Nat

namespace Arena

/-- The number of a set. A new set joins the queue, unless it is one too many. -/
def enter (limit : Option Nat) (a : Arena) (set : SortedSet Nat) : Except Error (Nat × Arena) :=
  match a.known.place? set with
  | some i => .ok (i, a)
  | none => (Nfa.discover limit a.known set).map fun known =>
    (a.known.size, ⟨known, a.queue ++ [a.known.size]⟩)

/-- All sets wait from number `next` on. -/
def waiting (known : Numbering (SortedSet Nat)) (next : Nat) : Arena :=
  ⟨known, List.range' next (known.size - next)⟩

end Arena

namespace Nfa

variable {n : Nfa} {limit : Option Nat} {known more : Numbering (SortedSet Nat)}
  {set : SortedSet Nat} {sets : List (SortedSet Nat)} {next : Nat} {states : Array DfaState}

/-! ## Rounds -/

/-- Fill the row of a set, symbol by symbol. -/
def fillRow? (n : Nfa) (limit : Option Nat) (set : SortedSet Nat) :
    List Char → Arena → Row → Option (Except Error (Arena × Row))
  | [], a, row => some (.ok (a, row))
  | c :: symbols, a, row => do
    let target ← n.step? set c
    match a.enter limit target with
    | .error e => some (.error e)
    | .ok (i, a) => n.fillRow? limit set symbols a (row.put c i)

/-- Find the state of the set with a given number. -/
def process? (n : Nfa) (limit : Option Nat) (a : Arena) (index : Nat) :
    Option (Except Error (Arena × DfaState)) := do
  let set ← a.known.get? index
  let name ← n.subsetName? set
  let filled ← n.fillRow? limit set n.alphabet.toList a .empty
  some (filled.map fun (a, row) => (a, ⟨name, set, n.Accepting set, row⟩))

/-- The loop with its outcome: as long as a set waits, its state is added. There is no
outcome but `none` if in some round something is not found. -/
inductive Drains (n : Nfa) (limit : Option Nat) :
    Arena → Array DfaState → Option (Except Error (Array DfaState)) → Prop
  | stop {known : Numbering (SortedSet Nat)} {states : Array DfaState} :
    Drains n limit ⟨known, []⟩ states (some (.ok states))
  | fail {known : Numbering (SortedSet Nat)} {states : Array DfaState} {index : Nat}
      {queue : List Nat} : n.process? limit ⟨known, queue⟩ index = none →
    Drains n limit ⟨known, index :: queue⟩ states none
  | cut {known : Numbering (SortedSet Nat)} {states : Array DfaState} {index : Nat}
      {queue : List Nat} {e : Error} : n.process? limit ⟨known, queue⟩ index = some (.error e) →
    Drains n limit ⟨known, index :: queue⟩ states (some (.error e))
  | round {known : Numbering (SortedSet Nat)} {states : Array DfaState} {index : Nat}
      {queue : List Nat} {a : Arena} {state : DfaState}
      {outcome : Option (Except Error (Array DfaState))} :
    n.process? limit ⟨known, queue⟩ index = some (.ok (a, state)) →
    Drains n limit a (states.push state) outcome →
    Drains n limit ⟨known, index :: queue⟩ states outcome

/-- The automaton with the states that have been added, of which there must be one. -/
def assemble? (n : Nfa) : Except Error (Array DfaState) → Option (Except Error Dfa)
  | .error e => some (.error e)
  | .ok states => if h : 0 < states.size then some (.ok ⟨states, n.alphabet, h⟩) else none

/-- The subset construction with its outcome, from the set in which reading begins to the
automaton. -/
inductive Constructs (n : Nfa) (limit : Option Nat) : Option (Except Error Dfa) → Prop
  | fail : n.closure? [n.initial] = none → Constructs n limit none
  | cut {start : SortedSet Nat} {e : Error} : n.closure? [n.initial] = some start →
    Arena.enter limit ⟨.empty, []⟩ start = .error e → Constructs n limit (some (.error e))
  | drained {start : SortedSet Nat} {index : Nat} {a : Arena}
      {outcome : Option (Except Error (Array DfaState))} : n.closure? [n.initial] = some start →
    Arena.enter limit ⟨.empty, []⟩ start = .ok (index, a) → Drains n limit a #[] outcome →
    Constructs n limit (outcome.bind n.assemble?)

/-- There is one way to go on. -/
theorem Drains.unique {a : Arena} {outcome outcome' : Option (Except Error (Array DfaState))}
    (h : Drains n limit a states outcome) (h' : Drains n limit a states outcome') :
    outcome = outcome' := by
  induction h generalizing outcome' with
  | stop => cases h'; rfl
  | fail hnone =>
    cases h' with
    | fail => rfl
    | cut herror => cases hnone.symm.trans herror
    | round hok => cases hnone.symm.trans hok
  | cut herror =>
    cases h' with
    | fail hnone => cases herror.symm.trans hnone
    | cut herror' => cases herror.symm.trans herror'; rfl
    | round hok => cases herror.symm.trans hok
  | round hok _ ih =>
    cases h' with
    | fail hnone => cases hok.symm.trans hnone
    | cut herror => cases hok.symm.trans herror
    | round hok' h' =>
      cases hok.symm.trans hok'
      exact ih h'

theorem Constructs.unique {outcome outcome' : Option (Except Error Dfa)}
    (h : Constructs n limit outcome) (h' : Constructs n limit outcome') : outcome = outcome' := by
  cases h with
  | fail hnone =>
    cases h' with
    | fail => rfl
    | cut hstart => cases hnone.symm.trans hstart
    | drained hstart => cases hnone.symm.trans hstart
  | cut hstart herror =>
    cases h' with
    | fail hnone => cases hnone.symm.trans hstart
    | cut hstart' herror' =>
      cases hstart.symm.trans hstart'
      cases herror.symm.trans herror'
      rfl
    | drained hstart' hok =>
      cases hstart.symm.trans hstart'
      cases herror.symm.trans hok
  | drained hstart hok h =>
    cases h' with
    | fail hnone => cases hnone.symm.trans hstart
    | cut hstart' herror =>
      cases hstart.symm.trans hstart'
      cases hok.symm.trans herror
    | drained hstart' hok' h' =>
      cases hstart.symm.trans hstart'
      cases hok.symm.trans hok'
      rw [h.unique h']

/-! ## Numbering sets -/

theorem eq_add_of_discover (h : discover limit known set = .ok more) : more = known.add set := by
  by_cases hmem : set ∈ known
  · rw [discover.eq_def, if_pos hmem] at h
    rw [Numbering.add_of_mem hmem]
    exact (Except.ok.inj h).symm
  · rw [discover.eq_def, if_neg hmem] at h
    cases limit with
    | none => exact (Except.ok.inj h).symm
    | some k =>
      by_cases hk : k ≤ known.size
      · simp [hk] at h
      · simpa [hk, eq_comm] using h

theorem eq_addAll_of_discoverAll (h : discoverAll limit known sets = .ok more) :
    more = known.addAll sets := by
  induction sets generalizing known with
  | nil => exact (Except.ok.inj h).symm
  | cons set sets ih =>
    rw [discoverAll, List.foldlM_cons] at h
    cases hset : discover limit known set with
    | error e =>
      rw [hset] at h
      cases h
    | ok known' =>
      rw [hset] at h
      rw [Numbering.addAll, List.foldl_cons, ← eq_add_of_discover hset]
      exact ih h

/-- A set that gets a number waits behind all others. -/
theorem enter_waiting (h : next ≤ known.size) : (Arena.waiting known next).enter limit set =
    (discover limit known set).map fun more => (more.placeOf set, Arena.waiting more next) := by
  rw [Arena.enter]
  cases hplace : known.place? set with
  | some i =>
    have hmem : set ∈ known := Numbering.mem_of_get? (Numbering.place?_eq_some_iff.mp hplace)
    simp [Arena.waiting, discover, hmem, hplace, Numbering.placeOf, Except.map]
  | none =>
    have hnot : set ∉ known := Numbering.place?_eq_none_iff.mp hplace
    simp only [Arena.waiting, hplace]
    cases hmore : discover limit known set with
    | error e => rfl
    | ok more =>
      obtain rfl := eq_add_of_discover hmore
      have hget := Numbering.get?_add_of_not_mem hnot
      have hplace : (known.add set).placeOf set = known.size :=
        Numbering.eq_of_get? (Numbering.get?_placeOf (Numbering.mem_of_get? hget)) hget
      have hqueue : List.range' next ((known.add set).size - next) =
          List.range' next (known.size - next) ++ [known.size] := by
        rw [Numbering.size_add_of_not_mem hnot, Nat.sub_add_comm h, List.range'_1_concat,
          Nat.add_sub_cancel' h]
      simp only [Except.map, hplace, hqueue]

/-! ## Nothing is missing -/

/-- The symbols of a row number the sets that they lead to. -/
theorem fillRow?_eq (hset : ∀ q ∈ set, q < n.size) {symbols : List Char} {row : Row}
    (hnext : next ≤ known.size) :
    n.fillRow? limit set symbols (.waiting known next) row =
      some ((discoverAll limit known (symbols.map (n.step set))).map fun more =>
        (.waiting more next, (symbols.map fun c => (c, more.placeOf (n.step set c))).foldl
          (fun row e => row.put e.1 e.2) row)) := by
  induction symbols generalizing known row with
  | nil => rfl
  | cons c symbols ih =>
    rw [fillRow?, step?_eq hset, Option.bind_eq_bind, Option.bind_some, enter_waiting hnext,
      List.map_cons, discoverAll, List.foldlM_cons]
    cases hfirst : discover limit known (n.step set c) with
    | error e => rfl
    | ok first =>
      obtain rfl := eq_add_of_discover hfirst
      have hle : next ≤ (known.add (n.step set c)).size :=
        Nat.le_trans hnext (Numbering.size_le_size_addAll [n.step set c])
      refine (ih hle).trans ?_
      show _ = some ((discoverAll limit _ _).map _)
      cases hmore : discoverAll limit (known.add (n.step set c)) (symbols.map (n.step set)) with
      | error e => rfl
      | ok more =>
        -- the number of the first set stays what it is when the others get theirs
        obtain rfl := eq_addAll_of_discoverAll hmore
        have hplace := Numbering.placeOf_eq_of_get? (Numbering.mem_add.mpr (.inl rfl))
          fun i y hy => Numbering.get?_addAll_of_eq_some (s := known.add (n.step set c))
            (l := symbols.map (n.step set)) hy
        simp only [Except.map, List.map_cons, List.foldl_cons, hplace]

/-- The round of a set numbers the sets behind it, and it adds the state that the set has
then. -/
theorem process?_eq (limit : Option Nat) {index : Nat} (hget : known.get? index = some set)
    (hset : ∀ q ∈ set, q < n.size) (hnext : next ≤ known.size) :
    n.process? limit (.waiting known next) index =
      some ((discoverAll limit known (n.subsetSpace.succ set)).map fun more =>
        (.waiting more next, n.stateOfSubset more set)) := by
  have hget' : (Arena.waiting known next).known.get? index = some set := hget
  rw [process?, hget']
  simp only [Option.bind_eq_bind, Option.bind_some, subsetName?_eq hset, fillRow?_eq hset hnext]
  refine congrArg some ?_
  show _ = (discoverAll limit known (n.alphabet.toList.map (n.step set))).map _
  cases discoverAll limit known (n.alphabet.toList.map (n.step set)) with
  | error e => rfl
  | ok more =>
    have hrow := Row.ofList_tabulate n.alphabet fun c => more.placeOf (n.step set c)
    rw [Row.ofList] at hrow
    simp only [Except.map, hrow]
    rfl

/-- Of the sets that wait the first is next, and behind it wait the others. -/
theorem waiting_eq (h : next < known.size) :
    Arena.waiting known next = ⟨known, next :: (Arena.waiting known (next + 1)).queue⟩ := by
  have hsub : known.size - next = known.size - (next + 1) + 1 := by omega
  rw [Arena.waiting, hsub, List.range'_succ]
  rfl

/-- The loop takes the rounds of the construction. -/
theorem Construction.drains {outcome : Except Error (Array DfaState)}
    (h : Construction n limit known states outcome) (hknown : n.subsetSpace.Contains known) :
    n.Drains limit (.waiting known states.size) states (some outcome) := by
  induction h with
  | @stop known states hnone =>
    have hle : known.size ≤ states.size := Array.getElem?_eq_none_iff.mp hnone
    rw [Arena.waiting, Nat.sub_eq_zero_of_le hle]
    exact .stop
  | @cut known states set e hget herror =>
    have hlt := Numbering.lt_size_of_get? hget
    have hprocess := process?_eq limit hget (hknown set (Numbering.mem_of_get? hget)) hlt
    rw [herror] at hprocess
    rw [waiting_eq hlt]
    exact .cut hprocess
  | @round known more states set outcome hget hmore h ih =>
    have hlt := Numbering.lt_size_of_get? hget
    have hprocess := process?_eq limit hget (hknown set (Numbering.mem_of_get? hget)) hlt
    rw [hmore] at hprocess
    obtain rfl := eq_addAll_of_discoverAll hmore
    have hrest := ih (hknown.addAll hget)
    rw [Array.size_push] at hrest
    rw [waiting_eq hlt]
    exact .round hprocess hrest

/-! ## The automaton -/

/-- The queue is filled and emptied as the construction begins and ends. -/
theorem Determinizes.constructs {outcome : Except Error (Array DfaState)}
    (h : Determinizes n limit outcome) : n.Constructs limit (n.assemble? outcome) := by
  have hclosure : n.closure? [n.initial] = some n.start :=
    closure?_eq fun q hq => List.mem_singleton.mp hq ▸ n.initial_lt
  have henter : Arena.enter limit ⟨.empty, []⟩ n.start =
      (discoverAll limit .empty [n.start]).map fun known =>
        (known.placeOf n.start, Arena.waiting known 0) := by
    have hfirst : discoverAll limit .empty [n.start] = discover limit .empty n.start := by
      simp [discoverAll]
    rw [hfirst]
    exact enter_waiting (Nat.zero_le (Numbering.empty : Numbering (SortedSet Nat)).size)
  cases h with
  | cut herror =>
    rw [herror] at henter
    exact .cut hclosure henter
  | start hknown h =>
    rw [hknown] at henter
    obtain rfl := eq_addAll_of_discoverAll hknown
    exact .drained hclosure henter (h.drains (Space.contains_addAll_empty n.mem_subsetSpace_start))

/-- The construction comes to an end, and what it ends with is the automaton that the
search finds, or that the limit is too low. -/
theorem constructs_iff {options : Options} {outcome : Option (Except Error Dfa)} :
    n.Constructs options.maxDfaStates outcome ↔ outcome = some (Dfa.ofNfaWith n options) := by
  have hends : n.Constructs options.maxDfaStates (some (Dfa.ofNfaWith n options)) := by
    have hdeterminizes : n.Determinizes options.maxDfaStates
        ((Dfa.ofNfaWith n options).map Dfa.states) := Dfa.determinizes_iff.mpr rfl
    have hconstructs := hdeterminizes.constructs
    cases hd : Dfa.ofNfaWith n options with
    | error e =>
      rw [hd] at hconstructs
      exact hconstructs
    | ok d =>
      obtain rfl := Dfa.eq_ofNfa_of_ofNfaWith hd
      rw [hd] at hconstructs
      have hassemble : n.assemble? (.ok (Dfa.ofNfa n).states) = some (.ok (Dfa.ofNfa n)) :=
        dif_pos (Dfa.ofNfa n).size_pos
      rw [← hassemble]
      exact hconstructs
  refine ⟨?_, ?_⟩
  · intro h
    exact h.unique hends
  · rintro rfl
    exact hends

end Nfa

end GrammarAutomata
