import GrammarAutomata.Proofs.Determinization
import GrammarAutomata.Proofs.DiscoveryOrder
import Mathlib.Data.List.Induction
import Mathlib.Data.List.Shortlex

/-!
# States are numbered by their access words

To each state of an automaton made by subset construction leads some word, and of the
words that do one is least: shorter words come first, words of one length are compared
letter by letter. Taken in this order the least words are those of state 0, of state 1,
and so on (`Dfa.precedes_of_lt`).

The induction is on the greater of two least words. Without its last letter it is the
least word of the state that it leads to then, and from that state the letter leads on;
but before this happens the search has met each state with a lower number at the end of
a transition from a lower state, or of one with a smaller letter
(`Dfa.exists_run_before`).

No number therefore depends on anything but the transitions: an automaton of the kind
cannot be numbered in two ways (`Dfa.Carries.eq_self`).
-/

namespace GrammarAutomata

namespace Word

/-! ## The order of words -/

/-- Shorter words come first, and words of one length in the order of the first letters
in which they differ. -/
def Precedes (u v : Word) : Prop := List.Shortlex (fun a b : Char => a < b) u v

variable {u v w : Word} {a b : Char}

theorem precedes_iff : u.Precedes v ↔
    u.length < v.length ∨ u.length = v.length ∧ List.Lex (fun a b : Char => a < b) u v :=
  List.shortlex_def

theorem wellFounded_precedes : WellFounded Precedes :=
  List.Shortlex.wf (InvImage.wf Char.toNat Nat.lt_wfRel.wf)

theorem Precedes.asymm (h : u.Precedes v) : ¬ v.Precedes u :=
  Std.Asymm.asymm (r := List.Shortlex fun a b : Char => a < b) u v h

theorem Precedes.trans (h : u.Precedes v) (h' : v.Precedes w) : u.Precedes w := by
  rw [precedes_iff] at *
  rcases h with hlt | ⟨heq, hlex⟩
  · rcases h' with hlt' | ⟨heq', _⟩
    · exact .inl (Nat.lt_trans hlt hlt')
    · exact .inl (heq' ▸ hlt)
  · rcases h' with hlt' | ⟨heq', hlex'⟩
    · exact .inl (heq ▸ hlt')
    · exact .inr ⟨heq.trans heq', List.lt_trans (α := Char) hlex hlex'⟩

/-- With more letters behind them, words of one length that differ stay in order. -/
theorem lex_append (hlength : u.length = v.length) (h : List.Lex (fun a b : Char => a < b) u v)
    (u' v' : Word) : List.Lex (fun a b : Char => a < b) (u ++ u') (v ++ v') := by
  induction h with
  | nil => cases hlength
  | cons _ ih => exact .cons (ih (Nat.succ.inj hlength))
  | rel hab => exact .rel hab

/-- One more letter each keeps the order of different words. -/
theorem Precedes.concat (h : u.Precedes v) (a b : Char) : (u ++ [a]).Precedes (v ++ [b]) := by
  rw [precedes_iff] at *
  rw [List.length_append, List.length_append, List.length_singleton, List.length_singleton]
  rcases h with hlt | ⟨heq, hlex⟩
  · exact .inl (Nat.succ_lt_succ hlt)
  · exact .inr ⟨congrArg (· + 1) heq, lex_append heq hlex [a] [b]⟩

/-- One more letter orders equal words. -/
theorem precedes_concat (w : Word) (h : a < b) : (w ++ [a]).Precedes (w ++ [b]) :=
  List.Shortlex.append_left ((List.shortlex_singleton_iff a b).mpr h) w

theorem nil_precedes (h : w ≠ []) : Precedes [] w :=
  (List.shortlex_nil_or_eq_nil w).resolve_right h

end Word

namespace Dfa

/-! ## Least words -/

/-- Of the words over the alphabet that lead from state 0 to a state, `w` is least. -/
structure LeastWord (d : Dfa) (q : Nat) (w : Word) : Prop where
  /-- it is one over the alphabet -/
  letters : ∀ c ∈ w, c ∈ d.alphabet
  /-- it leads to the state -/
  run : d.Run 0 w q
  /-- all others come behind it -/
  least : ∀ v, (∀ c ∈ v, c ∈ d.alphabet) → d.Run 0 v q → v = w ∨ w.Precedes v

variable {d : Dfa} {p q : Nat} {u v w : Word} {c : Char}

theorem LeastWord.unique (hu : d.LeastWord q u) (hv : d.LeastWord q v) : u = v := by
  rcases hu.least v hv.letters hv.run with rfl | huv
  · rfl
  · exact (hv.least u hu.letters hu.run).resolve_right huv.asymm

/-- No other word precedes the least. -/
theorem LeastWord.precedes (hw : d.LeastWord q w) (hletters : ∀ c ∈ u, c ∈ d.alphabet)
    (hrun : d.Run 0 u q) (h : u.Precedes v) : w.Precedes v := by
  rcases hw.least u hletters hrun with rfl | hwu
  · exact h
  · exact hwu.trans h

theorem exists_leastWord (hletters : ∀ c ∈ w, c ∈ d.alphabet) (hrun : d.Run 0 w q) :
    ∃ u, d.LeastWord q u := by
  obtain ⟨u, ⟨hu, hrunu⟩, hmin⟩ := Word.wellFounded_precedes.has_min
    {u : Word | (∀ c ∈ u, c ∈ d.alphabet) ∧ d.Run 0 u q} ⟨w, hletters, hrun⟩
  refine ⟨u, hu, hrunu, fun v hv hrunv => ?_⟩
  have hnot : ¬ v.Precedes u := hmin v ⟨hv, hrunv⟩
  rcases trichotomous (r := List.Shortlex fun a b : Char => a < b) u v with huv | rfl | hvu
  · exact .inr huv
  · exact .inl rfl
  · exact absurd hvu hnot

/-- A run is taken apart where its word is. -/
theorem exists_run_of_append (h : d.Run p (u ++ v) q) : ∃ r, d.Run p u r ∧ d.Run r v q := by
  induction u generalizing p with
  | nil => exact ⟨p, .nil p, h⟩
  | cons c u ih =>
    cases h with
    | cons hs hc h =>
      obtain ⟨r, hu, hv⟩ := ih h
      exact ⟨r, .cons hs hc hu, hv⟩

/-- Without its last letter a least word is the least word of the state that it leads to. -/
theorem LeastWord.exists_init (h : d.LeastWord q (w ++ [c])) :
    ∃ p, d.LeastWord p w ∧ d.Run p [c] q := by
  obtain ⟨p, hw, hc⟩ := exists_run_of_append h.run
  have hletters : ∀ a ∈ w, a ∈ d.alphabet := fun a ha => h.letters a (List.mem_append_left _ ha)
  refine ⟨p, ⟨hletters, hw, fun v hv hrun => ?_⟩, hc⟩
  rcases trichotomous (r := List.Shortlex fun a b : Char => a < b) w v with hwv | rfl | hvw
  · exact .inr hwv
  · exact .inl rfl
  · -- a smaller word in its place would make the longer word smaller
    have hbefore : (v ++ [c]).Precedes (w ++ [c]) := Word.Precedes.concat hvw c c
    have hvc : ∀ a ∈ v ++ [c], a ∈ d.alphabet := by
      intro a ha
      rcases List.mem_append.mp ha with ha | ha
      · exact hv a ha
      · exact h.letters a (List.mem_append_right _ ha)
    have hself := h.precedes hvc (hrun.append hc) hbefore
    exact absurd hself hself.asymm

/-! ## Numbers are in the order of least words -/

section

variable {n : Nfa} {i j k : Nat} {b : Char}

/-- A transition leads to the number of the set behind the symbol. -/
theorem run_singleton_iff : (ofNfa n).Run i [c] j ↔ ∃ set, (n.subsets none).get? i = some set ∧
    c ∈ n.alphabet ∧ (n.subsets none).get? j = some (n.step set c) := by
  refine ⟨fun h => ?_, ?_⟩
  · have hc : c ∈ n.alphabet := mem_alphabet_of_run h c List.mem_cons_self
    cases h with
    | cons hs hget hnil =>
      cases hnil
      obtain ⟨set, hset, rfl⟩ := exists_subset_of_state? hs
      rw [get?_row_ofNfa, if_pos hc] at hget
      obtain rfl := Option.some.inj hget
      exact ⟨set, hset, hc, Nfa.get?_placeOf_step hset hc⟩
  · rintro ⟨set, hset, hc, hj⟩
    obtain ⟨k, hrun, hk⟩ := exists_run_ofNfa (w := [c]) hset fun a ha =>
      List.mem_singleton.mp ha ▸ hc
    obtain rfl := Numbering.eq_of_get? hk hj
    exact hrun

/-- Before a transition leads to a state, one has led to each state with a lower number:
from a lower state, or with a smaller symbol. -/
theorem exists_run_before (hij : i < j) (hi : i ≠ 0) (h : (ofNfa n).Run k [b] j) :
    ∃ k' a, (k' < k ∨ k' = k ∧ a < b) ∧ (ofNfa n).Run k' [a] i := by
  obtain ⟨set, hset, hb, hj⟩ := run_singleton_iff.mp h
  obtain ⟨target, htarget⟩ := Numbering.exists_get?_of_lt
    (Nat.lt_trans hij (Numbering.lt_size_of_get? hj))
  -- the symbols before `b` in the alphabet are the smaller ones
  obtain ⟨smaller, greater, hsplit⟩ := List.append_of_mem hb
  have hsucc : n.subsetSpace.succ set =
      smaller.map (n.step set) ++ n.step set b :: greater.map (n.step set) := by
    show n.alphabet.toList.map (n.step set) = _
    rw [hsplit, List.map_append, List.map_cons]
  rcases Space.mem_before_of_explore n.mem_subsetSpace_start htarget hj hij hset hsucc with
    hstart | ⟨k', set', hk', hset', hmem⟩ | hmem
  · obtain rfl := List.mem_singleton.mp hstart
    exact absurd (Numbering.eq_of_get? htarget Nfa.get?_subsets_zero) hi
  · obtain ⟨a, ha, rfl⟩ := List.mem_map.mp hmem
    exact ⟨k', a, .inl hk', run_singleton_iff.mpr ⟨set', hset', ha, htarget⟩⟩
  · obtain ⟨a, ha, rfl⟩ := List.mem_map.mp hmem
    have hmem : a ∈ n.alphabet := by
      rw [← SortedSet.mem_toList, hsplit]
      exact List.mem_append_left _ ha
    have hsorted := n.alphabet.sorted
    rw [hsplit] at hsorted
    have hab := (List.pairwise_append.mp hsorted).2.2 a ha b List.mem_cons_self
    exact ⟨k, a, .inr ⟨rfl, compareOfLessAndEq_eq_lt.mp hab⟩,
      run_singleton_iff.mpr ⟨set, hset, hmem, htarget⟩⟩

/-- Every state has a least word. -/
theorem exists_leastWord_of_lt (h : i < (ofNfa n).size) : ∃ w, (ofNfa n).LeastWord i w := by
  obtain ⟨w, hrun⟩ := exists_run_iff_lt_size.mpr h
  exact exists_leastWord (mem_alphabet_of_run hrun) hrun

theorem leastWord_zero : (ofNfa n).LeastWord 0 [] := by
  refine ⟨nofun, .nil 0, fun v _ _ => ?_⟩
  by_cases hv : v = []
  · exact .inl hv
  · exact .inr (Word.nil_precedes hv)

/-- What has a least word is a state. -/
theorem LeastWord.lt_size (h : (ofNfa n).LeastWord i w) : i < (ofNfa n).size :=
  exists_run_iff_lt_size.mp ⟨w, h.run⟩

/-- The state with the lower number has the smaller least word. -/
theorem precedes_of_lt (hu : (ofNfa n).LeastWord i u) (hv : (ofNfa n).LeastWord j v)
    (hij : i < j) : u.Precedes v := by
  induction v using List.reverseRecOn generalizing i j u with
  | nil =>
    cases hv.run
    exact absurd hij (Nat.not_lt_zero i)
  | append_singleton v b ih =>
    by_cases hi : i = 0
    · subst hi
      rw [hu.unique leastWord_zero]
      exact Word.nil_precedes (by simp)
    · obtain ⟨k, hk, hlast⟩ := hv.exists_init
      obtain ⟨k', a, hbefore, hrun⟩ := exists_run_before hij hi hlast
      have hk' : k' < (ofNfa n).size := by
        rcases hbefore with hlt | ⟨rfl, _⟩
        · exact Nat.lt_trans hlt hk.lt_size
        · exact hk.lt_size
      obtain ⟨w, hw⟩ := exists_leastWord_of_lt hk'
      -- the way through the earlier transition is no smaller than `u` and smaller than `v ++ [b]`
      have hway : (ofNfa n).Run 0 (w ++ [a]) i := hw.run.append hrun
      refine hu.precedes (mem_alphabet_of_run hway) hway ?_
      rcases hbefore with hlt | ⟨rfl, hab⟩
      · exact (ih hw hk hlt).concat a b
      · rw [hw.unique hk]
        exact Word.precedes_concat v hab

theorem lt_iff_precedes (hu : (ofNfa n).LeastWord i u) (hv : (ofNfa n).LeastWord j v) :
    i < j ↔ u.Precedes v := by
  refine ⟨precedes_of_lt hu hv, fun h => ?_⟩
  rcases Nat.lt_trichotomy i j with hij | rfl | hji
  · exact hij
  · rw [hu.unique hv] at h
    exact absurd h h.asymm
  · exact absurd h (precedes_of_lt hv hu hji).asymm

end

/-! ## Numbers depend on transitions only -/

/-- The map `f` takes the transitions between the states of `d` to those of `d'`, and keeps
the states apart. Nothing is said about names, subsets and acceptance. -/
structure Carries (f : Nat → Nat) (d d' : Dfa) : Prop where
  /-- reading begins in the same state -/
  initial : f 0 = 0
  /-- different states go to different states -/
  injective : ∀ p q, p < d.size → q < d.size → f p = f q → p = q
  /-- the row of a state is carried along -/
  row : ∀ q s, d.state? q = some s → ∃ s', d'.state? (f q) = some s' ∧
    ∀ c, s'.row.get? c = (s.row.get? c).map f

variable {d' : Dfa} {f : Nat → Nat}

theorem Carries.run (hf : Carries f d d') (h : d.Run p w q) : d'.Run (f p) w (f q) := by
  induction h with
  | nil q => exact .nil (f q)
  | cons hs hc _ ih =>
    obtain ⟨s', hs', hrow⟩ := hf.row _ _ hs
    exact .cons hs' ((hrow _).trans (congrArg (Option.map f) hc)) ih

section

variable {n m : Nfa} {i j : Nat}

/-- Nothing else can be read where the transitions have been carried to. -/
theorem Carries.exists_run (hf : Carries f (ofNfa n) d') (hi : i < (ofNfa n).size)
    (h : d'.Run (f i) w q) : ∃ j, q = f j ∧ j < (ofNfa n).size ∧ (ofNfa n).Run i w j := by
  generalize hstart : f i = start at h
  induction h generalizing i with
  | nil => exact ⟨i, hstart.symm, hi, .nil i⟩
  | cons hs hc _ ih =>
    subst hstart
    obtain ⟨s, hstate⟩ : ∃ s, (ofNfa n).state? i = some s := ⟨_, Array.getElem?_eq_getElem hi⟩
    obtain ⟨s', hs', hrow⟩ := hf.row i s hstate
    cases hs.symm.trans hs'
    rw [hrow] at hc
    obtain ⟨k, hk, rfl⟩ := Option.map_eq_some_iff.mp hc
    obtain ⟨set, _, _, hset⟩ := run_singleton_iff.mp (.cons hstate hk (.nil k))
    have hlt : k < (ofNfa n).size := lt_size_of_state? (state?_ofNfa hset)
    obtain ⟨j, rfl, hj, hrun⟩ := ih hlt rfl
    exact ⟨j, rfl, hj, .cons hstate hk hrun⟩

/-- The least word of a state is also that of the state it is carried to. -/
theorem Carries.leastWord (hf : Carries f (ofNfa n) (ofNfa m)) (h : (ofNfa n).LeastWord i w) :
    (ofNfa m).LeastWord (f i) w := by
  have hrun : (ofNfa m).Run 0 w (f i) := by
    have := hf.run h.run
    rwa [hf.initial] at this
  refine ⟨mem_alphabet_of_run hrun, hrun, fun v _ hv => ?_⟩
  rw [← hf.initial] at hv
  obtain ⟨j, heq, hj, hback⟩ := hf.exists_run (ofNfa n).size_pos hv
  obtain rfl := hf.injective i j h.lt_size hj heq
  exact h.least v (mem_alphabet_of_run hback) hback

theorem Carries.lt_of_lt (hf : Carries f (ofNfa n) (ofNfa m)) (hij : i < j)
    (hj : j < (ofNfa n).size) : f i < f j := by
  obtain ⟨u, hu⟩ := exists_leastWord_of_lt (Nat.lt_trans hij hj)
  obtain ⟨v, hv⟩ := exists_leastWord_of_lt hj
  exact (lt_iff_precedes (hf.leastWord hu) (hf.leastWord hv)).mpr (precedes_of_lt hu hv hij)

/-- Nothing is left out. -/
theorem Carries.exists_eq (hf : Carries f (ofNfa n) (ofNfa m)) (hj : j < (ofNfa m).size) :
    ∃ i, i < (ofNfa n).size ∧ f i = j := by
  obtain ⟨w, hrun⟩ := exists_run_iff_lt_size.mpr hj
  rw [← hf.initial] at hrun
  obtain ⟨i, rfl, hi, _⟩ := hf.exists_run (ofNfa n).size_pos hrun
  exact ⟨i, hi, rfl⟩

/-- If transitions are carried to transitions, every number is carried to itself. -/
theorem Carries.eq_self (hf : Carries f (ofNfa n) (ofNfa m)) (hi : i < (ofNfa n).size) :
    f i = i := by
  induction i using Nat.strong_induction_on with
  | _ i ih =>
    rcases Nat.lt_trichotomy (f i) i with hlt | heq | hgt
    · have hself := ih (f i) hlt (Nat.lt_trans hlt hi)
      have hsame := hf.injective (f i) i (Nat.lt_trans hlt hi) hi hself
      exact absurd hsame (Nat.ne_of_lt hlt)
    · exact heq
    · -- then something else is carried to `i`, and no number is left for it
      obtain ⟨w, hw⟩ := exists_leastWord_of_lt hi
      obtain ⟨k, hk, hki⟩ := hf.exists_eq (Nat.lt_trans hgt (hf.leastWord hw).lt_size)
      rcases Nat.lt_trichotomy k i with hlt | rfl | hik
      · exact absurd ((ih k hlt hk).symm.trans hki) (Nat.ne_of_lt hlt)
      · exact hki
      · have := hf.lt_of_lt hik hk
        omega

end

/-- **States are numbered in the order of their least words.** Each state has a least
word, state 0 the empty one; of two states that with the lower number has the word that
comes first. So the transitions alone determine the numbers: a map that takes the states
of one automaton made by subset construction to those of another, with their transitions,
takes each number to itself. -/
theorem numbered_by_least_words (n : Nfa) :
    (∀ i, i < (ofNfa n).size ↔ ∃ w, (ofNfa n).LeastWord i w) ∧
    (ofNfa n).LeastWord 0 [] ∧
    (∀ i j u v, (ofNfa n).LeastWord i u → (ofNfa n).LeastWord j v → (i < j ↔ u.Precedes v)) ∧
    ∀ m f, Carries f (ofNfa n) (ofNfa m) → ∀ i, i < (ofNfa n).size → f i = i := by
  refine ⟨fun i => ⟨exists_leastWord_of_lt, ?_⟩, leastWord_zero, ?_, ?_⟩
  · rintro ⟨w, hw⟩
    exact hw.lt_size
  · intro i j u v hu hv
    exact lt_iff_precedes hu hv
  · intro m f hf i hi
    exact hf.eq_self hi

/-- An automaton with one way for each of `a` and `b`, which meet again behind `b`. -/
def forked : Nfa :=
  .ofTransitions [.nonterminal 'S', .nonterminal 'A', .nonterminal 'B', .accept] {'a', 'b'} 0 {3}
    [⟨0, .symbol 'a', 1⟩, ⟨0, .symbol 'b', 2⟩, ⟨1, .symbol 'a', 3⟩, ⟨2, .symbol 'b', 1⟩]
    (by decide) (by decide) (by decide)

/-- The same with states `A` and `B` added the other way round, and another final state. -/
def forkedOtherwise : Nfa :=
  .ofTransitions [.nonterminal 'S', .nonterminal 'B', .nonterminal 'A', .accept] {'a', 'b'} 0 {2}
    [⟨0, .symbol 'a', 2⟩, ⟨0, .symbol 'b', 1⟩, ⟨2, .symbol 'a', 3⟩, ⟨1, .symbol 'b', 2⟩]
    (by decide) (by decide) (by decide)

/-- State 2 of the first is met behind `b`, state 3 behind `aa`; all numbers are those of the
second. -/
theorem numbered_by_least_words_forked :
    (∃ u v, (ofNfa forked).LeastWord 2 u ∧ (ofNfa forked).LeastWord 3 v ∧ u.Precedes v) ∧
    Carries id (ofNfa forked) (ofNfa forkedOtherwise) ∧ 4 < (ofNfa forked).size ∧ id 4 = 4 := by
  obtain ⟨hleast, -, horder, hcarried⟩ := numbered_by_least_words forked
  have hsize : 4 < (ofNfa forked).size := by decide +kernel
  have hentries : (ofNfa forked).states.toList.map (·.row.entries) =
      (ofNfa forkedOtherwise).states.toList.map (·.row.entries) := by decide +kernel
  have hcarries : Carries id (ofNfa forked) (ofNfa forkedOtherwise) := by
    refine ⟨rfl, fun _ _ _ _ heq => heq, fun q s hs => ?_⟩
    have hrow : ((ofNfa forkedOtherwise).state? q).map (·.row.entries) = some s.row.entries := by
      rw [state?, ← Array.getElem?_toList, ← List.getElem?_map, ← hentries, List.getElem?_map,
        Array.getElem?_toList]
      exact congrArg (Option.map (·.row.entries)) hs
    obtain ⟨s', hs', heq⟩ := Option.map_eq_some_iff.mp hrow
    exact ⟨s', hs', fun c => by rw [SortedMap.get?, heq, Option.map_id]; rfl⟩
  obtain ⟨u, hu⟩ := (hleast 2).mp (Nat.lt_trans (by decide) hsize)
  obtain ⟨v, hv⟩ := (hleast 3).mp (Nat.lt_trans (by decide) hsize)
  exact ⟨⟨u, v, hu, hv, (horder 2 3 u v hu hv).mp (by decide)⟩, hcarries, hsize,
    hcarried forkedOtherwise id hcarries 4 hsize⟩

end Dfa

end GrammarAutomata
