import GrammarAutomata.Proofs.Lookups
import GrammarAutomata.Proofs.Refusals

/-!
# Building the automaton of a grammar step by step

The automaton of a grammar can be built up state by state and transition by transition:
first a state for each nonterminal, entered into a table, then the accepting state, then
a path for each production, between states that are looked up in the table. Each of these
steps can fail for want of something it looks for. None does, and what is built is the
automaton of the arcs (`Nfa.build?_eq`).

Before each production the automaton is that of the arcs of the productions before it
(`Nfa.addProduction?_eq`); this carries the induction.
-/

namespace GrammarAutomata

namespace Nfa

variable {g : Grammar} {n m : Nfa} {units : UnitProductions} {options : Options}
  {done : List Arc} {arc : Arc} {source target : Nat} {word : Word} {p : Production}
  {table : Std.TreeMap Char Nat}

/-! ## States of nonterminals -/

/-- An automaton and the table of its states of nonterminals. -/
structure Named where
  /-- the automaton -/
  nfa : Nfa
  /-- the state of each nonterminal that has one -/
  table : Std.TreeMap Char Nat

/-- Add the state of a nonterminal. -/
def Named.add (b : Named) (a : Char) : Named :=
  ⟨b.nfa.addState (.nonterminal a), b.table.insert a b.nfa.size⟩

/-- The states of all nonterminals of a grammar, that of the start symbol first. -/
def named (g : Grammar) : Named :=
  (g.nonterminals.toList.filter (· ≠ g.start)).foldl Named.add
    ⟨.single g.terminals (.nonterminal g.start), (∅ : Std.TreeMap Char Nat).insert g.start 0⟩

/-- The table says at which place of a list each nonterminal stands. -/
def Tabulates (table : Std.TreeMap Char Nat) (names : List Char) : Prop :=
  ∀ (a : Char) (i : Nat), table[a]? = some i ↔ names[i]? = some a

theorem Tabulates.insert {names : List Char} {a : Char} (h : Tabulates table names)
    (ha : a ∉ names) : Tabulates (table.insert a names.length) (names ++ [a]) := by
  let s : Numbering Char := ⟨names.toArray, table, fun b i => (h b i).trans (by simp)⟩
  have hnone : s.places[a]? = none := by
    rw [Option.eq_none_iff_forall_ne_some]
    intro i hi
    exact ha (List.mem_of_getElem? ((h a i).mp hi))
  intro b i
  simpa [s] using Numbering.places_eq_push hnone b i

/-- New nonterminals get the next states, and these are what the table says. -/
theorem grows_foldl_add {b : Named} {names l : List Char} (hl : (names ++ l).Nodup)
    (htable : Tabulates b.table names) (hsize : b.nfa.size = names.length) :
    b.nfa.Grows (l.foldl Named.add b).nfa (l.map .nonterminal) [] ∧
      Tabulates (l.foldl Named.add b).table (names ++ l) := by
  induction l generalizing b names with
  | nil => exact ⟨.refl _, by rwa [List.append_nil]⟩
  | cons a l ih =>
    have ha : a ∉ names := fun hmem =>
      (List.nodup_append.mp hl).2.2 a hmem a List.mem_cons_self rfl
    rw [List.append_cons] at hl ⊢
    have hgrows := b.nfa.grows_addState (.nonterminal a)
    obtain ⟨hgrows', htable'⟩ := @ih (b.add a) (names ++ [a]) hl
      (by rw [Named.add, hsize]; exact htable.insert ha)
      (by rw [List.length_append, ← hsize]; exact hgrows.size_eq)
    exact ⟨hgrows.trans hgrows', htable'⟩

theorem grows_named (g : Grammar) : (single g.terminals (.nonterminal g.start)).Grows (named g).nfa
      ((g.nonterminals.toList.filter (· ≠ g.start)).map .nonterminal) [] ∧
    Tabulates (named g).table g.stateOrder := by
  have hempty : Tabulates ∅ [] := fun a i => by simp
  have hfirst : Tabulates ((∅ : Std.TreeMap Char Nat).insert g.start 0) [g.start] :=
    hempty.insert List.not_mem_nil
  have hnodup : ([g.start] ++ g.nonterminals.toList.filter (· ≠ g.start)).Nodup :=
    g.nodup_stateOrder
  exact grows_foldl_add (b := ⟨.single g.terminals (.nonterminal g.start), _⟩) hnodup hfirst rfl

/-- The table knows the state of each nonterminal. -/
theorem getElem?_table_named {a : Char} (ha : a ∈ g.nonterminals) :
    (named g).table[a]? = some (g.stateOf (some a)) :=
  ((grows_named g).2 a _).mpr (Grammar.getElem?_stateOrder_iff.mpr ⟨ha, rfl⟩)

theorem size_named (g : Grammar) : (named g).nfa.size = g.acceptState := by
  rw [(grows_named g).1.size_eq, Grammar.acceptState, Grammar.stateOrder, List.length_cons,
    List.length_map, Nat.add_comm]
  rfl

/-- With the accepting state added, the automaton is that of no arcs. -/
theorem addFinal?_named (g : Grammar) :
    ((named g).nfa.addState .accept).addFinal? g.acceptState = some (ofArcs g []) := by
  have hgrows := (grows_named g).1.trans ((named g).nfa.grows_addState .accept)
  have hlt : g.acceptState < ((named g).nfa.addState .accept).size := by
    rw [((named g).nfa.grows_addState .accept).size_eq, size_named]
    exact Nat.lt_succ_self _
  rw [addFinal?, dif_pos hlt]
  refine congrArg some (eq_of_mem_transitions_iff ?_ (fun t => ?_) ?_ ?_ ?_)
  · rw [kinds_ofArcs]
    exact hgrows.kinds_eq.trans (by simp [kinds_single, kindsOf, Grammar.stateOrder, innerStates])
  · refine ((hgrows.mem_iff t).trans (iff_of_false ?_ ?_)).trans mem_transitions_ofTransitions.symm
    · simpa using not_mem_transitions_single
    · exact List.not_mem_nil
  · exact hgrows.alphabet
  · exact hgrows.initial
  · exact finals_addFinal hgrows.finals hlt

/-! ## Paths -/

/-- Add a path that reads a word, which must not be empty, through states of its own. -/
def addPath? (n : Nfa) (source : Nat) : Word → Nat → Option Nfa
  | [], _ => none
  | [c], target => n.addTransition? ⟨source, .symbol c, target⟩
  | c :: d :: word, target => do
    let m ← (n.addState .intermediate).addTransition? ⟨source, .symbol c, n.size⟩
    m.addPath? n.size (d :: word) target

/-- What a path adds is a chain. -/
theorem exists_addPath? (hword : word ≠ []) (hs : source < n.size) (ht : target < n.size) :
    ∃ m, n.addPath? source word target = some m ∧
      n.Grows m (List.replicate (word.length - 1) .intermediate)
        (chain n.size source word target) := by
  fun_induction addPath? n source word target with
  | case1 => exact absurd rfl hword
  | case2 n source c target => exact exists_addTransition? hs ht
  | case3 n source c d word target ih =>
    have hgrows := n.grows_addState .intermediate
    have hsize : (n.addState .intermediate).size = n.size + 1 := hgrows.size_eq
    obtain ⟨m, hm, hgrows'⟩ := exists_addTransition? (n := n.addState .intermediate)
      (t := ⟨source, .symbol c, n.size⟩) (by rw [hsize]; exact Nat.lt_succ_of_lt hs)
      (by rw [hsize]; exact Nat.lt_succ_self _)
    have hsize' : m.size = n.size + 1 := hgrows'.size_eq.trans hsize
    obtain ⟨r, hr, hgrows''⟩ := ih m (List.cons_ne_nil _ _)
      (by rw [hsize']; exact Nat.lt_succ_self _) (by rw [hsize']; exact Nat.lt_succ_of_lt ht)
    refine ⟨r, by rw [hm]; exact hr, ?_⟩
    rw [hsize'] at hgrows''
    exact (hgrows.trans hgrows').trans hgrows''

/-! ## Arcs -/

theorem chains_append {next : Nat} {arcs : List Arc} : chains g next (done ++ arcs) =
    chains g next done ++ chains g (next + innerStates done) arcs := by
  induction done generalizing next with
  | nil => rfl
  | cons a done ih =>
    rw [List.cons_append, chains, ih, chains, innerStates, List.append_assoc, Nat.add_assoc]

theorem innerStates_append {arcs : List Arc} :
    innerStates (done ++ arcs) = innerStates done + innerStates arcs := by
  induction done with
  | nil => exact (Nat.zero_add _).symm
  | cons a done ih => rw [List.cons_append, innerStates, ih, innerStates, Nat.add_assoc]

theorem size_ofArcs : (ofArcs g done).size = g.acceptState + 1 + innerStates done := by
  rw [← length_kinds, kinds_ofArcs, length_kindsOf]

/-- The chain of one more arc makes the automaton one that goes this arc too. -/
theorem Grows.eq_ofArcs (h : (ofArcs g done).Grows m (List.replicate arc.inner .intermediate)
    (chain (ofArcs g done).size (g.stateOf (some arc.source)) arc.word (g.stateOf arc.target))) :
    m = ofArcs g (done ++ [arc]) := by
  refine eq_of_mem_transitions_iff ?_ (fun t => ?_) h.alphabet h.initial h.finals
  · rw [h.kinds_eq, kinds_ofArcs, kinds_ofArcs, kindsOf, kindsOf, innerStates_append,
      ← List.replicate_append_replicate]
    simp [innerStates]
  · rw [h.mem_iff, mem_transitions_ofArcs, mem_transitions_ofArcs, chains_append, List.mem_append,
      size_ofArcs]
    simp [chains]

/-! ## Productions -/

/-- What a body that ends in `last` reads, and the state in which its path ends. -/
def ending? (g : Grammar) (table : Std.TreeMap Char Nat) (accept : Nat) (p : Production)
    (last : Char) : Option (Word × Nat) :=
  if last ∈ g.nonterminals then table[last]?.map fun q => (p.body.dropLast, q)
  else some (p.body, accept)

/-- Add the way from `source` to `target` that reads `word`, or say why the body has
none. -/
def addWay? (g : Grammar) (units : UnitProductions) (n : Nfa) (body : Word) (source : Nat)
    (word : Word) (target : Nat) : Option (Except ArcError Nfa) :=
  match word.find? (· ∈ g.nonterminals) with
  | some c => some (.error (.misplacedNonterminal c))
  | none =>
    if word = [] then
      match units with
      | .epsilon => (n.addTransition? ⟨source, .epsilon, target⟩).map .ok
      | .reject => body.head?.map fun c => .error (.unitProduction c)
    else (n.addPath? source word target).map .ok

/-- Add the way of a production, or say why it has none. -/
def addProduction? (g : Grammar) (units : UnitProductions) (table : Std.TreeMap Char Nat)
    (accept : Nat) (n : Nfa) (p : Production) : Option (Except ArcError Nfa) := do
  let source ← table[p.lhs]?
  match p.body.getLast? with
  | none => some (.error .emptyBody)
  | some last =>
    let way ← ending? g table accept p last
    n.addWay? g units p.body source way.1 way.2

/-- Add the ways of several productions, and stop at the first that has none. -/
def addProductions? (g : Grammar) (units : UnitProductions) (table : Std.TreeMap Char Nat)
    (accept : Nat) (n : Nfa) : List (Production × Nat) → Option (Except Error Nfa)
  | [] => some (.ok n)
  | x :: productions => do
    match ← addProduction? g units table accept n x.1 with
    | .error reason => some (.error (.malformedProduction x.2 x.1 reason))
    | .ok m => m.addProductions? g units table accept productions

/-- The automaton of a right-linear grammar. -/
def buildRight? (g : Grammar) (units : UnitProductions) : Option (Except Error Nfa) := do
  let accept := (named g).nfa.size
  let n ← ((named g).nfa.addState .accept).addFinal? accept
  n.addProductions? g units (named g).table accept g.productions.zipIdx

/-- That of a left-linear grammar is built from the productions read backwards and then
reversed. An error shows the production as it stands in the grammar. -/
def buildLeft? (g : Grammar) (units : UnitProductions) : Option (Except Error Nfa) := do
  match ← buildRight? g.reversed units with
  | .error (.malformedProduction i _ reason) =>
    g.productions[i]?.map fun p => .error (.malformedProduction i p reason)
  | .error e => some (.error e)
  | .ok n => n.reverse?.map .ok

/-- The automaton of a linear grammar, built up step by step. -/
def build? (g : Grammar) (options : Options) : Option (Except Error Nfa) :=
  match g.classify with
  | .regular | .rightLinear => buildRight? g options.unitProductions
  | .leftLinear => buildLeft? g options.unitProductions
  | grammarClass => some (.error (.unsupportedClass grammarClass))

/-- In the table stand the states of all nonterminals. -/
def Knows (g : Grammar) (table : Std.TreeMap Char Nat) : Prop :=
  ∀ a ∈ g.nonterminals, table[a]? = some (g.stateOf (some a))

theorem ending?_eq (htable : Knows g table) {last : Char} :
    ending? g table g.acceptState p last =
      some ((g.arcUpTo p last).word, g.stateOf (g.arcUpTo p last).target) := by
  rw [ending?, Grammar.arcUpTo]
  split
  · rename_i hmem
    rw [htable last hmem]
    rfl
  · rfl

theorem stateOf_lt_size {b : Option Char} : g.stateOf b < (ofArcs g done).size := by
  have := Grammar.stateOf_le (g := g) b
  rw [size_ofArcs]
  omega

theorem source_arcUpTo {last : Char} : (g.arcUpTo p last).source = p.lhs := by
  rw [Grammar.arcUpTo]
  split <;> rfl

/-- A word that is empty is gone by a transition, any other by a path. -/
theorem exists_way (g : Grammar) (done : List Arc) (arc : Arc) :
    (if arc.word = [] then
        (ofArcs g done).addTransition?
          ⟨g.stateOf (some arc.source), .epsilon, g.stateOf arc.target⟩
      else (ofArcs g done).addPath? (g.stateOf (some arc.source)) arc.word (g.stateOf arc.target)) =
      some (ofArcs g (done ++ [arc])) := by
  have hlt (b : Option Char) : g.stateOf b < (ofArcs g done).size := stateOf_lt_size
  split
  · rename_i hnil
    obtain ⟨m, hm, hgrows⟩ := exists_addTransition? (n := ofArcs g done)
      (t := ⟨g.stateOf (some arc.source), .epsilon, g.stateOf arc.target⟩)
      (hlt (some arc.source)) (hlt arc.target)
    have heq : m = ofArcs g (done ++ [arc]) :=
      Grows.eq_ofArcs (by rw [Arc.inner, hnil]; exact hgrows)
    rw [hm, heq]
  · rename_i hword
    obtain ⟨m, hm, hgrows⟩ := exists_addPath? hword (hlt (some arc.source)) (hlt arc.target)
    rw [hm, hgrows.eq_ofArcs]

/-- The way of an arc makes the automaton one that goes this arc too. -/
theorem addWay?_eq {last : Char} (hlast : p.body.getLast? = some last) :
    (ofArcs g done).addWay? g units p.body (g.stateOf (some p.lhs)) (g.arcUpTo p last).word
        (g.stateOf (g.arcUpTo p last).target) =
      some ((g.arc units p).map fun arc => ofArcs g (done ++ [arc])) := by
  have hway := exists_way g done (g.arcUpTo p last)
  rw [source_arcUpTo] at hway
  cases hfind : (g.arcUpTo p last).word.find? (· ∈ g.nonterminals) with
  | some c => simp only [addWay?, Grammar.arc, hlast, hfind, Except.map]
  | none =>
    simp only [addWay?, Grammar.arc, hlast, hfind]
    by_cases hnil : (g.arcUpTo p last).word = []
    · rw [if_pos hnil] at hway ⊢
      cases units with
      | epsilon => simp only [hway, reduceCtorEq, and_false, if_false, Option.map_some, Except.map]
      | reject =>
        -- then the body is its last symbol alone, which is also the first
        obtain ⟨_, hbody⟩ := (Grammar.word_arcUpTo_eq_nil_iff hlast).mp hnil
        simp only [hnil, hbody, List.head?_cons, Option.map_some, and_self, if_true, Except.map]
    · rw [if_neg hnil] at hway ⊢
      simp only [hway, hnil, false_and, if_false, Option.map_some, Except.map]

/-- A production that has an arc makes the automaton of the arcs before it into one that
goes this arc too. -/
theorem addProduction?_eq (htable : Knows g table) (hp : p.lhs ∈ g.nonterminals) :
    addProduction? g units table g.acceptState (ofArcs g done) p =
      some ((g.arc units p).map fun arc => ofArcs g (done ++ [arc])) := by
  rw [addProduction?, htable p.lhs hp]
  cases hlast : p.body.getLast? with
  | none => rw [Grammar.arc, hlast]; rfl
  | some last =>
    rw [← addWay?_eq hlast]
    simp only [Option.bind_eq_bind, Option.bind_some, ending?_eq htable]

theorem addProductions?_eq (htable : Knows g table) {productions : List (Production × Nat)}
    (hlhs : ∀ x ∈ productions, x.1.lhs ∈ g.nonterminals) :
    (ofArcs g done).addProductions? g units table g.acceptState productions =
      some ((productions.mapM fun x =>
        (g.arc units x.1).mapError (Error.malformedProduction x.2 x.1)).map
          fun arcs => ofArcs g (done ++ arcs)) := by
  induction productions generalizing done with
  | nil => rw [addProductions?, List.mapM_nil]; simp [pure, Except.pure, Except.map]
  | cons x productions ih =>
    rw [addProductions?, addProduction?_eq htable (hlhs x List.mem_cons_self)]
    cases harc : g.arc units x.1 with
    | error reason =>
      rw [mapM_cons_of_error (by rw [harc]; rfl)]
      rfl
    | ok arc =>
      rw [mapM_cons_of_ok (b := arc) (by rw [harc]; rfl)]
      refine (ih fun y hy => hlhs y (List.mem_cons_of_mem _ hy)).trans ?_
      cases productions.mapM fun x =>
        (g.arc units x.1).mapError (Error.malformedProduction x.2 x.1) with
      | error e => rfl
      | ok arcs => simp only [Except.map, List.append_assoc, List.singleton_append]

/-! ## Grammars -/

theorem buildRight?_eq (g : Grammar) (units : UnitProductions) :
    buildRight? g units = some ((g.arcs units .right).map (ofArcs g)) := by
  have hlhs : ∀ x ∈ g.productions.zipIdx, x.1.lhs ∈ g.nonterminals := fun x hx =>
    g.wellFormed.lhs_mem x.1 (List.fst_mem_of_mem_zipIdx hx)
  have hbuilt : (ofArcs g []).addProductions? g units (named g).table g.acceptState
      g.productions.zipIdx = _ := addProductions?_eq (fun a ha => getElem?_table_named ha) hlhs
  simp only [buildRight?, size_named, addFinal?_named, Option.bind_eq_bind, Option.bind_some, hbuilt]
  rfl

/-- The arcs of a grammar read from right to left are those of the reversed grammar. -/
theorem arcs_reversed (g : Grammar) (units : UnitProductions) : g.reversed.arcs units .right =
    g.productions.zipIdx.mapM fun x =>
      (g.arc units x.1.reversed).mapError (Error.malformedProduction x.2 x.1.reversed) := by
  show (g.productions.map Production.reversed).zipIdx.mapM _ = _
  rw [List.zipIdx_map, List.mapM_map]
  rfl

theorem chains_reversed (g : Grammar) {next : Nat} (arcs : List Arc) :
    chains g.reversed next arcs = chains g next arcs := by
  induction arcs generalizing next with
  | nil => rfl
  | cons a arcs ih =>
    rw [chains, chains, ih]
    rfl

/-- The states of arcs depend on the nonterminals alone. -/
theorem ofArcs_reversed (g : Grammar) (arcs : List Arc) : ofArcs g.reversed arcs = ofArcs g arcs := by
  refine eq_of_mem_transitions_iff ?_ (fun t => ?_) rfl rfl rfl
  · rw [kinds_ofArcs, kinds_ofArcs]
    rfl
  · rw [mem_transitions_ofArcs, mem_transitions_ofArcs, chains_reversed]
    rfl

theorem buildLeft?_eq (g : Grammar) (units : UnitProductions) : buildLeft? g units =
    some ((g.arcs units .left).map fun arcs => (ofArcs g arcs).reverse) := by
  rw [buildLeft?, buildRight?_eq, arcs_reversed]
  cases h : g.productions.zipIdx.mapM fun x =>
      (g.arc units x.1.reversed).mapError (Error.malformedProduction x.2 x.1.reversed) with
  | ok arcs =>
    have hleft : g.arcs units .left = .ok arcs := mapM_mapError_eq_ok h
    rw [hleft]
    simp only [Except.map, Option.bind_eq_bind, Option.bind_some, ofArcs_reversed, reverse?_eq,
      Option.map_some]
  | error e =>
    obtain ⟨x, hx, reason, rfl, hleft⟩ := mapM_mapError_eq_error
      (fun x : Production × Nat => Error.malformedProduction x.2 x.1) h
    replace hleft : g.arcs units .left = _ := hleft
    have hget : g.productions[x.2]? = some x.1 := List.mk_mem_zipIdx_iff_getElem?.mp hx
    rw [hleft]
    simp only [Except.map, Option.bind_eq_bind, Option.bind_some, hget, Option.map_some]

/-- Nothing is looked for in vain when the automaton of a grammar is built, and it is the
automaton that the arcs make. -/
theorem build?_eq (g : Grammar) (options : Options) : build? g options = some (ofGrammar g options) := by
  rw [build?, ofGrammar]
  cases g.classify with
  | regular => exact buildRight?_eq g _
  | rightLinear => exact buildRight?_eq g _
  | leftLinear => exact buildLeft?_eq g _
  | contextFree => rfl
  | unrecognized => rfl

end Nfa

end GrammarAutomata
