import GrammarAutomata.Proofs.Compilation
import GrammarAutomata.Proofs.Determinization
import Std.Data.String.ToNat

/-!
# Names tell states apart

The name of a state is one character, and digits behind it unless the character is the
nonterminal that the state is named for. Two states have different names, since a
nonterminal has one state only and all other names end in the number of the state
(`Nfa.eq_of_name?_eq`).

The names of several states, joined by commas, can be read off the joined text again,
even if a nonterminal is itself a comma, a bracket or a digit: a name ends where its
digits end, and what follows is the comma (`splitNames_intercalate`). So the name of a
set of states tells which states it holds (`Nfa.eq_of_subsetName_eq`), and the states of
a deterministic automaton have different names too.
-/

namespace GrammarAutomata

/-! ## Reading joined names -/

/-- A character, and perhaps digits behind it. -/
def IsName (s : Word) : Prop := ∃ c digits, s = c :: digits ∧ ∀ d ∈ digits, d.isDigit = true

/-- Take a text apart, where each name ends before the first character that is no digit,
its own first character apart. What stands there is left out. -/
def splitNames : Word → List Word
  | [] => []
  | c :: rest =>
    (c :: rest.takeWhile Char.isDigit) :: splitNames ((rest.dropWhile Char.isDigit).drop 1)
termination_by text => text.length
decreasing_by
  have := (List.dropWhile_suffix (l := rest) Char.isDigit).length_le
  simp only [List.length_drop, List.length_cons]
  omega

theorem takeWhile_digits {digits rest : Word} (hdigits : ∀ d ∈ digits, d.isDigit = true)
    (hrest : ∀ c ∈ rest.head?, c.isDigit = false) :
    (digits ++ rest).takeWhile Char.isDigit = digits ∧
      (digits ++ rest).dropWhile Char.isDigit = rest := by
  rw [List.takeWhile_append_of_pos hdigits, List.dropWhile_append_of_pos hdigits]
  cases rest with
  | nil => simp
  | cons c rest => simp [hrest c rfl]

/-- Joined names can be taken apart. -/
theorem splitNames_intercalate {names : List Word} (h : ∀ s ∈ names, IsName s) :
    splitNames ([','].intercalate names) = names := by
  induction names with
  | nil => simp [splitNames]
  | cons s names ih =>
    obtain ⟨c, digits, rfl, hdigits⟩ := h s List.mem_cons_self
    specialize ih fun s hs => h s (List.mem_cons_of_mem _ hs)
    -- behind the digits comes a comma and the other names, if there are any
    obtain ⟨rest, hjoin, hhead, hrest⟩ : ∃ rest : Word,
        [','].intercalate ((c :: digits) :: names) = c :: (digits ++ rest) ∧
        (∀ d ∈ rest.head?, d.isDigit = false) ∧ rest.drop 1 = [','].intercalate names := by
      cases names with
      | nil => exact ⟨[], by simp, nofun, by simp⟩
      | cons t names =>
        refine ⟨',' :: [','].intercalate (t :: names), by simp, fun d hd => ?_, rfl⟩
        obtain rfl : ',' = d := by simpa using hd
        rfl
    obtain ⟨htake, hdrop⟩ := takeWhile_digits hdigits hhead
    rw [hjoin, splitNames, htake, hdrop, hrest, ih]

theorem eq_of_intercalate_eq {names names' : List String}
    (h : ∀ s ∈ names, IsName s.toList) (h' : ∀ s ∈ names', IsName s.toList)
    (heq : ",".intercalate names = ",".intercalate names') : names = names' := by
  have hsplit {names : List String} (h : ∀ s ∈ names, IsName s.toList) :
      splitNames (",".intercalate names).toList = names.map String.toList := by
    rw [String.toList_intercalate]
    exact splitNames_intercalate (List.forall_mem_map.mpr h)
  have hlists : names.map String.toList = names'.map String.toList := by
    rw [← hsplit h, heq, hsplit h']
  exact List.map_injective_iff.mpr (fun _ _ => String.toList_inj.mp) hlists

/-! ## The name of a state -/

namespace StateKind

/-- A name is the nonterminal, or a letter with the number of the state. -/
theorem toList_name (id : Nat) (kind : StateKind) :
    (∃ c, kind = .nonterminal c ∧ (kind.name id).toList = [c]) ∨
      ∃ letter, (kind.name id).toList = letter :: Nat.toDigits 10 id := by
  have hletter (letter : String) : (letter ++ id.repr).toList =
      letter.toList ++ Nat.toDigits 10 id := by
    rw [String.toList_append, Nat.repr_eq_ofList_toDigits, String.toList_ofList]
  cases kind with
  | nonterminal c => exact .inl ⟨c, rfl, by simp [name]⟩
  | accept => exact .inr ⟨'F', hletter "F"⟩
  | intermediate => exact .inr ⟨'W', hletter "W"⟩
  | entry => exact .inr ⟨'I', hletter "I"⟩

theorem isName_name (id : Nat) (kind : StateKind) : IsName (kind.name id).toList := by
  rcases toList_name id kind with ⟨c, _, h⟩ | ⟨letter, h⟩
  · exact ⟨c, [], h, nofun⟩
  · exact ⟨letter, _, h, fun d hd => Nat.isDigit_of_mem_toDigits (by decide) (by decide) hd⟩

/-- One name for two states: either both are named for one nonterminal, or it is one
state. -/
theorem eq_of_name_eq {p q : Nat} {kind kind' : StateKind} (h : kind.name p = kind'.name q) :
    (∃ c, kind = .nonterminal c ∧ kind' = .nonterminal c) ∨ p = q := by
  rcases toList_name p kind with ⟨c, hkind, hp⟩ | ⟨letter, hp⟩ <;>
    rcases toList_name q kind' with ⟨c', hkind', hq⟩ | ⟨letter', hq⟩ <;>
    rw [h, hq] at hp
  · obtain rfl : c' = c := by simpa using hp
    exact .inl ⟨c', hkind, hkind'⟩
  · exact absurd (List.cons.inj hp).2 Nat.toDigits_ne_nil
  · exact absurd (List.cons.inj hp).2.symm Nat.toDigits_ne_nil
  · refine .inr (Nat.repr_inj.mp ?_)
    rw [Nat.repr_eq_ofList_toDigits, Nat.repr_eq_ofList_toDigits, (List.cons.inj hp).2]

end StateKind

/-- What only one element of a list is looked for by is found at its place. -/
theorem findIdx?_eq_of_unique {α : Type} {l : List α} {p : α → Bool} {i : Nat} {x : α}
    (hx : l[i]? = some x) (hp : p x = true)
    (hunique : ∀ (j : Nat) (y : α), l[j]? = some y → p y = true → j = i) :
    l.findIdx? p = some i := by
  obtain ⟨hi, rfl⟩ := List.getElem?_eq_some_iff.mp hx
  refine List.findIdx?_eq_some_iff_getElem.mpr ⟨hi, hp, fun j hj hpj => ?_⟩
  have hj' := Nat.lt_trans hj hi
  exact absurd (hunique j l[j] (List.getElem?_eq_getElem hj') hpj) (Nat.ne_of_lt hj)

namespace Nfa

variable {g : Grammar} {options : Options} {n m : Nfa} {p q : Nat} {s : String}
  {set set' : SortedSet Nat}

/-! ## The states of an automaton -/

/-- No nonterminal has two states. -/
def NamedApart (n : Nfa) : Prop :=
  ∀ (p q : Nat) (c : Char), n.kinds[p]? = some (.nonterminal c) →
    n.kinds[q]? = some (.nonterminal c) → p = q

theorem namedApart_ofArcs {arcs : List Arc} : (ofArcs g arcs).NamedApart := by
  intro p q c hp hq
  rw [kinds_ofArcs, getElem?_kindsOf_nonterminal_iff] at hp hq
  rw [hp.2, hq.2]

/-- The state that reversal adds is not that of a nonterminal. -/
theorem NamedApart.reverse (h : n.NamedApart) : n.reverse.NamedApart := by
  intro p q c hp hq
  have hkind : StateKind.nonterminal c ≠ .entry := nofun
  exact h p q c ((getElem?_kinds_reverse_iff hkind).mp hp)
    ((getElem?_kinds_reverse_iff hkind).mp hq)

theorem namedApart_ofGrammar (h : ofGrammar g options = .ok n) : n.NamedApart := by
  rcases exists_arcs_of_ofGrammar h with ⟨arcs, _, rfl⟩ | ⟨arcs, _, rfl⟩
  · exact namedApart_ofArcs
  · exact namedApart_ofArcs.reverse

theorem NamedApart.turned (h : n.NamedApart) (hm : n.Turned m) : m.NamedApart := by
  induction hm with
  | refl => exact h
  | reverse _ ih => exact ih.reverse

theorem name?_eq : n.name? q = n.kinds[q]?.map (StateKind.name q) := by
  rw [NfaStore.name?, NfaStore.kinds, Array.getElem?_toList]

theorem exists_name? (hq : q < n.size) : ∃ s, n.name? q = some s := by
  rw [NfaStore.name?, Array.getElem?_eq_getElem hq]
  exact ⟨_, rfl⟩

theorem isName_of_name? (h : n.name? q = some s) : IsName s.toList := by
  rw [name?_eq, Option.map_eq_some_iff] at h
  obtain ⟨kind, _, rfl⟩ := h
  exact kind.isName_name q

/-- Different states have different names. -/
theorem eq_of_name?_eq (h : n.NamedApart) (hp : n.name? p = some s) (hq : n.name? q = some s) :
    p = q := by
  rw [name?_eq, Option.map_eq_some_iff] at hp hq
  obtain ⟨kind, hkind, rfl⟩ := hp
  obtain ⟨kind', hkind', hname⟩ := hq
  rcases StateKind.eq_of_name_eq hname with ⟨c, rfl, rfl⟩ | heq
  · exact h p q c hkind hkind'
  · exact heq.symm

/-- So a state is found by its name. -/
theorem stateByName?_of_name? (h : n.NamedApart) (hq : n.name? q = some s) :
    n.stateByName? s = some q := by
  have hnames (p : Nat) : n.names.toList[p]? = n.name? p := by
    rw [Array.getElem?_toList, NfaStore.names, Array.getElem?_mapIdx]
    rfl
  refine findIdx?_eq_of_unique ((hnames q).trans hq) (beq_self_eq_true s) fun p t hp ht => ?_
  obtain rfl : t = s := eq_of_beq ht
  exact eq_of_name?_eq h ((hnames p).symm.trans hp) hq

/-! ## Sets of states -/

/-- Sets of existing states that have one name hold the same states. -/
theorem eq_of_subsetName_eq (h : n.NamedApart) (hset : ∀ q ∈ set, q < n.size)
    (hset' : ∀ q ∈ set', q < n.size) (heq : n.subsetName set = n.subsetName set') :
    set = set' := by
  -- the sorted names are the same, so the unsorted ones are the same up to order
  have hnames {set : SortedSet Nat} {le : String → String → Bool} :
      ∀ s ∈ (set.toList.filterMap n.name?).mergeSort le, IsName s.toList := by
    intro s hs
    obtain ⟨q, _, hq⟩ := List.mem_filterMap.mp (List.mem_mergeSort.mp hs)
    exact isName_of_name? hq
  have hsorted := eq_of_intercalate_eq hnames hnames
    ((String.append_right_inj _).mp ((String.append_left_inj _).mp heq))
  have hsub {set set' : SortedSet Nat} {le : String → String → Bool}
      (hset : ∀ q ∈ set, q < n.size)
      (hsorted : (set.toList.filterMap n.name?).mergeSort le =
        (set'.toList.filterMap n.name?).mergeSort le) : ∀ q ∈ set, q ∈ set' := by
    intro q hq
    obtain ⟨s, hs⟩ := exists_name? (hset q hq)
    have hmem : s ∈ (set.toList.filterMap n.name?).mergeSort le :=
      List.mem_mergeSort.mpr (List.mem_filterMap.mpr ⟨q, hq, hs⟩)
    rw [hsorted, List.mem_mergeSort] at hmem
    obtain ⟨p, hp, hps⟩ := List.mem_filterMap.mp hmem
    exact eq_of_name?_eq h hps hs ▸ hp
  exact SortedSet.ext fun q => ⟨hsub hset hsorted q, hsub hset' hsorted.symm q⟩

end Nfa

namespace Dfa

variable {n : Nfa} {i j : Nat} {s t : DfaState}

/-- Different states stand for different sets, so they have different names. -/
theorem eq_of_name_eq (h : n.NamedApart) (hs : (ofNfa n).state? i = some s)
    (ht : (ofNfa n).state? j = some t) (heq : s.name = t.name) : i = j := by
  obtain ⟨set, hset, rfl⟩ := exists_subset_of_state? hs
  obtain ⟨set', hset', rfl⟩ := exists_subset_of_state? ht
  obtain rfl : set = set' := Nfa.eq_of_subsetName_eq h
    (Nfa.lt_size_of_mem_subsets (Numbering.mem_of_get? hset))
    (Nfa.lt_size_of_mem_subsets (Numbering.mem_of_get? hset')) heq
  exact Numbering.eq_of_get? hset hset'

theorem stateByName?_of_state? (h : n.NamedApart) (hs : (ofNfa n).state? i = some s) :
    (ofNfa n).stateByName? s.name = some i := by
  have hlist (j : Nat) : (ofNfa n).states.toList[j]? = (ofNfa n).state? j := by
    rw [Array.getElem?_toList]
    rfl
  refine findIdx?_eq_of_unique ((hlist i).trans hs) (beq_self_eq_true s.name) fun j t ht heq => ?_
  exact eq_of_name_eq h ((hlist j).symm.trans ht) hs (eq_of_beq heq)

end Dfa

namespace Nfa

/-- **Names identify states.** In the automaton of a grammar, whatever characters its
nonterminals are and however often the automaton has been reversed, every state has a
name, different states have different names, and by its name a state is found. The same
holds of the deterministic automaton, whose states are named for sets of these. -/
theorem names_identify_states (g : Grammar) (options : Options) (n₀ n : Nfa)
    (h : ofGrammar g options = .ok n₀) (hn : n₀.Turned n) :
    (∀ q < n.size, ∃ name, n.name? q = some name ∧ n.stateByName? name = some q) ∧
    (∀ p q name, n.name? p = some name → n.name? q = some name → p = q) ∧
    (∀ i s, (Dfa.ofNfa n).state? i = some s → (Dfa.ofNfa n).stateByName? s.name = some i) ∧
    ∀ i j s t, (Dfa.ofNfa n).state? i = some s → (Dfa.ofNfa n).state? j = some t →
      s.name = t.name → i = j := by
  have hapart := (namedApart_ofGrammar h).turned hn
  refine ⟨fun q hq => ?_, fun p q name => eq_of_name?_eq hapart,
    fun i s => Dfa.stateByName?_of_state? hapart, fun i j s t => Dfa.eq_of_name_eq hapart⟩
  obtain ⟨name, hname⟩ := exists_name? hq
  exact ⟨name, hname, stateByName?_of_name? hapart hname⟩

/-- A grammar whose nonterminals are characters that names are made of. -/
def punctuationSample : Grammar where
  nonterminals := {',', '1', 'F', '['}
  terminals := {'a', 'b'}
  start := ','
  productions := [⟨',', ['a', '1']⟩, ⟨',', ['a', ',']⟩, ⟨'1', ['a', 'b', 'F']⟩, ⟨'F', ['[']⟩,
    ⟨'[', ['b']⟩]
  wellFormed := Draft.defect?_eq_none_iff.mp (by decide)

/-- Reversed twice, its automaton has two states more, both of the same kind. -/
theorem names_identify_states_punctuation :
    ∃ n₀, ofGrammar punctuationSample {} = .ok n₀ ∧ n₀.Turned n₀.reverse.reverse ∧
      (∀ q < n₀.size + 2, ∃ name, n₀.reverse.reverse.name? q = some name ∧
        n₀.reverse.reverse.stateByName? name = some q) ∧
      ∀ i s, (Dfa.ofNfa n₀.reverse.reverse).state? i = some s →
        (Dfa.ofNfa n₀.reverse.reverse).stateByName? s.name = some i := by
  obtain ⟨n₀, h⟩ := exists_ok_of_isOk (x := ofGrammar punctuationSample {}) (by decide +kernel)
  have hturned : n₀.Turned n₀.reverse.reverse := .reverse (.reverse .refl)
  obtain ⟨hstates, _, hsets, _⟩ := names_identify_states _ _ _ _ h hturned
  rw [size_reverse, size_reverse] at hstates
  exact ⟨n₀, h, hturned, hstates, hsets⟩

end Nfa

end GrammarAutomata
