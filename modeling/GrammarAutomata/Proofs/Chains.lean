import GrammarAutomata.Grammar.Derivation
import GrammarAutomata.Nfa.Path
import GrammarAutomata.Proofs.Arcs
import GrammarAutomata.Proofs.StateNumbers

/-!
# Paths along chains are derivations

In each state of the automaton that goes some arcs there is a form left to be
replaced (`remainder`): in the state of a nonterminal that nonterminal, inside a
chain what the chain has not read yet, at the end nothing. A transition reads the
first symbol of it or replaces it, so a path is a derivation
(`Nfa.derives_of_path`). Conversely a derivation keeps to words with at most one
nonterminal, behind them, and such a form tells what a path has read and where it
has come to (`Nfa.exists_path_of_derives`).
-/

namespace GrammarAutomata

/-- What a label reads, as a word. -/
def Label.word (l : Label) : Word := l.symbol?.toList

/-! ## What is left in each state -/

/-- What is left to be replaced in each state that an arc passes through. -/
def Arc.remainders (arc : Arc) : List Word :=
  (List.range arc.inner).map fun i => arc.word.drop (i + 1) ++ arc.target.toList

/-- What is left to be replaced in each state: nonterminals, nothing, chains. -/
def remainders (g : Grammar) (arcs : List Arc) : List Word :=
  g.stateOrder.map (fun a => [a]) ++ [] :: arcs.flatMap Arc.remainders

/-- What is left to be replaced in state `q`. -/
def remainder (g : Grammar) (arcs : List Arc) (q : Nat) : Word := (remainders g arcs)[q]?.getD []

variable {g : Grammar} {arcs : List Arc} {arc : Arc}

/-- In the state of a nonterminal that nonterminal is left, in the accepting state
nothing. -/
theorem remainder_stateOf {b : Option Char} (hb : ∀ x ∈ b, x ∈ g.nonterminals) :
    remainder g arcs (g.stateOf b) = b.toList := by
  cases b with
  | none => simp [remainder, remainders, Grammar.stateOf, Grammar.acceptState]
  | some a =>
    have hlt : g.stateOrder.idxOf a < g.stateOrder.length := Grammar.stateOf_lt (hb a rfl)
    simp [remainder, remainders, Grammar.stateOf, List.getElem?_append_left, hlt]

@[simp] theorem length_remainders : arc.remainders.length = arc.inner := by simp [Arc.remainders]

/-! ## Paths are derivations -/

/-- A transition of a chain reads the first symbol of what is left, if inside the
chain what is left is said by `rest`, and the whole chain replaces what is left at its
beginning. -/
theorem derives_of_mem_chain {ps : List Production} {rest : Nat → Word}
    {next source target : Nat} {word : Word}
    (hsource : Derives ps (rest source) (word ++ rest target))
    (hinner : ∀ i, i + 1 < word.length → rest (next + i) = word.drop (i + 1) ++ rest target) :
    ∀ t ∈ chain next source word target,
      Derives ps (rest t.source) (t.label.word ++ rest t.target) := by
  fun_induction chain next source word target with
  | case1 source target => simpa [Label.word, Label.symbol?] using hsource
  | case2 source c target => simpa [Label.word, Label.symbol?] using hsource
  | case3 next source c d word target ih =>
    have hnext : rest next = d :: word ++ rest target := by simpa using hinner 0 (by simp)
    intro t ht
    rcases List.mem_cons.mp ht with rfl | ht
    · -- the first transition: behind it the rest of the chain is left
      show Derives ps (rest source) (c :: rest next)
      rw [hnext]
      exact hsource
    · refine ih (hnext ▸ .refl _) (fun i hi => ?_) t ht
      have := hinner (i + 1) (Nat.succ_lt_succ hi)
      rw [← Nat.add_assoc, Nat.add_right_comm] at this
      exact this

/-- The same for several chains, which pass through states with the numbers from
`next` on. -/
theorem derives_of_mem_chains {ps : List Production} {rest : Nat → Word} {next : Nat}
    (hps : ∀ arc ∈ arcs, arc.production ∈ ps) (hfits : ∀ arc ∈ arcs, arc.Fits g)
    (hnamed : ∀ b : Option Char, (∀ x ∈ b, x ∈ g.nonterminals) → rest (g.stateOf b) = b.toList)
    (hinner : ∀ i, rest (next + i) = (arcs.flatMap Arc.remainders)[i]?.getD []) :
    ∀ t ∈ chains g next arcs, Derives ps (rest t.source) (t.label.word ++ rest t.target) := by
  induction arcs generalizing next with
  | nil => exact fun t ht => absurd ht List.not_mem_nil
  | cons arc arcs ih =>
    have hfit := hfits arc List.mem_cons_self
    have hsource := hnamed (some arc.source) fun x hx => Option.mem_some_iff.mp hx ▸ hfit.source_mem
    have htarget := hnamed arc.target hfit.target_mem
    intro t ht
    rcases List.mem_append.mp ht with ht | ht
    · refine derives_of_mem_chain ?_ (fun i hi => ?_) t ht
      · -- the chain as a whole is one step, by the production of the arc
        rw [hsource, htarget]
        simpa [Arc.production] using Derives.single (.intro (hps arc List.mem_cons_self) [] [])
      · have hlt : i < arc.inner := by unfold Arc.inner; omega
        rw [hinner, htarget, List.flatMap_cons, List.getElem?_append_left (by simpa using hlt)]
        simp [Arc.remainders, hlt]
    · -- the chains behind it are numbered from where this one ends
      refine ih (fun a ha => hps a (List.mem_cons_of_mem _ ha))
        (fun a ha => hfits a (List.mem_cons_of_mem _ ha)) (fun i => ?_) t ht
      rw [Nat.add_assoc, hinner, List.flatMap_cons, List.getElem?_append_right (by simp)]
      simp

namespace Nfa

theorem mem_transitions_ofArcs {t : Transition} :
    t ∈ (ofArcs g arcs).transitions ↔ t ∈ chains g (g.acceptState + 1) arcs :=
  mem_transitions_ofTransitions

theorem derives_of_mem_transitions (hfits : ∀ arc ∈ arcs, arc.Fits g) :
    ∀ t ∈ (ofArcs g arcs).transitions, Derives (arcs.map Arc.production)
      (remainder g arcs t.source) (t.label.word ++ remainder g arcs t.target) := by
  intro t ht
  refine derives_of_mem_chains (fun arc harc => List.mem_map_of_mem harc) hfits
    (fun b hb => remainder_stateOf hb) (fun i => ?_) t (mem_transitions_ofArcs.mp ht)
  rw [remainder, remainders, List.getElem?_append_right]
  · simp [Grammar.acceptState, Nat.add_assoc, Nat.add_comm 1]
  · simp [Grammar.acceptState, Nat.add_assoc]

/-- A path turns what is left at its beginning into what it reads and what is left at
its end. -/
theorem derives_of_path (hfits : ∀ arc ∈ arcs, arc.Fits g) {p q : Nat} {w : Word}
    (h : (ofArcs g arcs).Path p w q) :
    Derives (arcs.map Arc.production) (remainder g arcs p) (w ++ remainder g arcs q) := by
  induction h with
  | nil => exact .refl _
  | epsilon ht _ ih => exact (derives_of_mem_transitions hfits _ ht).trans ih
  | @symbol p q r c w ht _ ih =>
    have hrest := ih.append_append [c] []
    rw [List.append_nil, List.append_nil] at hrest
    exact (derives_of_mem_transitions hfits _ ht).trans hrest

/-! ## Derivations are paths -/

theorem path_of_chain {n : Nfa} {next source target : Nat} {word : Word}
    (h : ∀ t ∈ chain next source word target, t ∈ n.transitions) : n.Path source word target := by
  fun_induction chain next source word target with
  | case1 => exact .of_epsilon (h _ List.mem_cons_self)
  | case2 => exact .of_symbol (h _ List.mem_cons_self)
  | case3 next source c d word target ih =>
    exact .symbol (h _ List.mem_cons_self) (ih fun t ht => h t (List.mem_cons_of_mem _ ht))

/-- The chain of each arc is among the chains of all of them. -/
theorem exists_chain_of_mem {next : Nat} (h : arc ∈ arcs) : ∃ next', ∀ t ∈
    chain next' (g.stateOf arc.source) arc.word (g.stateOf arc.target), t ∈ chains g next arcs := by
  induction arcs generalizing next with
  | nil => exact absurd h List.not_mem_nil
  | cons a arcs ih =>
    rcases List.mem_cons.mp h with rfl | h
    · exact ⟨next, fun t ht => List.mem_append_left _ ht⟩
    · obtain ⟨next', hchain⟩ := @ih (next + a.inner) h
      exact ⟨next', fun t ht => List.mem_append_right _ (hchain t ht)⟩

/-- Each arc is gone by a path. -/
theorem path_of_arc (h : arc ∈ arcs) :
    (ofArcs g arcs).Path (g.stateOf arc.source) arc.word (g.stateOf arc.target) := by
  obtain ⟨next, hchain⟩ := exists_chain_of_mem h
  exact path_of_chain fun t ht => mem_transitions_ofArcs.mpr (hchain t ht)

end Nfa

/-- A word without nonterminals, and perhaps a nonterminal behind it. -/
structure Settled (g : Grammar) (u : Word) (b : Option Char) : Prop where
  /-- the word holds no nonterminals -/
  word : ∀ c ∈ u, c ∉ g.nonterminals
  /-- what stands behind it is one -/
  last : ∀ x ∈ b, x ∈ g.nonterminals

/-- The only nonterminal of such a form is the last symbol. -/
theorem Settled.eq_of_append {u before after : Word} {a : Char} {b : Option Char}
    (h : Settled g u b) (ha : a ∈ g.nonterminals) (heq : before ++ a :: after = u ++ b.toList) :
    before = u ∧ after = [] ∧ b = some a := by
  have hnot : a ∉ u := fun hmem => h.word a hmem ha
  cases b with
  | none =>
    rw [Option.toList_none, List.append_nil] at heq
    exact absurd (heq ▸ List.mem_append_right _ List.mem_cons_self) hnot
  | some x =>
    rcases List.eq_nil_or_concat after with rfl | ⟨after, y, rfl⟩
    · obtain ⟨rfl, hx⟩ := List.append_inj' heq rfl
      exact ⟨rfl, rfl, by simpa using hx.symm⟩
    · -- more symbols behind would put `a` into the word
      have heq' : (before ++ a :: after) ++ [y] = u ++ [x] := by simpa using heq
      obtain ⟨rfl, _⟩ := List.append_inj' heq' rfl
      exact absurd (List.mem_append_right _ List.mem_cons_self) hnot

/-- A form can be taken apart in one way only. -/
theorem Settled.unique {u v : Word} {a b : Option Char} (h : Settled g u a) (h' : Settled g v b)
    (heq : u ++ a.toList = v ++ b.toList) : u = v ∧ a = b := by
  cases a with
  | some a =>
    obtain ⟨rfl, _, rfl⟩ := h'.eq_of_append (h.last a rfl) heq
    exact ⟨rfl, rfl⟩
  | none =>
    cases b with
    | none => simpa using heq
    | some b =>
      obtain ⟨_, _, hb⟩ := h.eq_of_append (h'.last b rfl) heq.symm
      cases hb

namespace Nfa

/-- What is derived from a nonterminal is a word and perhaps a nonterminal behind it,
and a path from the state of the first nonterminal reads the word and ends in the
state of the other. -/
theorem exists_path_of_derives (hfits : ∀ arc ∈ arcs, arc.Fits g) {a : Char} {v : Word}
    (ha : a ∈ g.nonterminals) (h : Derives (arcs.map Arc.production) [a] v) :
    ∃ u b, v = u ++ b.toList ∧ Settled g u b ∧
      (ofArcs g arcs).Path (g.stateOf (some a)) u (g.stateOf b) := by
  generalize hstart : [a] = start at h
  induction h with
  | refl =>
    refine ⟨[], some a, hstart.symm, ⟨nofun, fun x hx => ?_⟩, .nil _⟩
    exact Option.mem_some_iff.mp hx ▸ ha
  | tail _ hstep ih =>
    obtain ⟨u, b, rfl, hform, hpath⟩ := ih
    generalize hv : u ++ b.toList = v at hstep
    obtain ⟨hp, before, after⟩ := hstep
    obtain ⟨arc, harc, rfl⟩ := List.mem_map.mp hp
    have hfit := hfits arc harc
    -- only the nonterminal at the end can have been replaced
    obtain ⟨rfl, rfl, rfl⟩ := hform.eq_of_append hfit.source_mem hv.symm
    refine ⟨before ++ arc.word, arc.target, by simp [Arc.production], ⟨fun c hc => ?_,
      hfit.target_mem⟩, hpath.append (path_of_arc harc)⟩
    rcases List.mem_append.mp hc with hc | hc
    · exact hform.word c hc
    · exact hfit.word_settled c hc

/-- **Paths are derivations.** From the state of a nonterminal a path reads a word and
ends in the state of another, or in the accepting one, if and only if the word with
that nonterminal behind it, or alone, is derived. -/
theorem path_ofArcs_iff (hfits : ∀ arc ∈ arcs, arc.Fits g) {a : Char} {u : Word}
    {b : Option Char} (ha : a ∈ g.nonterminals) (hform : Settled g u b) :
    (ofArcs g arcs).Path (g.stateOf (some a)) u (g.stateOf b) ↔
      Derives (arcs.map Arc.production) [a] (u ++ b.toList) := by
  refine ⟨?_, ?_⟩
  · intro hpath
    have hderives := derives_of_path hfits hpath
    rw [remainder_stateOf hform.last,
      remainder_stateOf fun x hx => Option.mem_some_iff.mp hx ▸ ha] at hderives
    exact hderives
  · intro hderives
    obtain ⟨v, c, heq, hform', hpath⟩ := exists_path_of_derives hfits ha hderives
    obtain ⟨rfl, rfl⟩ := hform.unique hform' heq
    exact hpath

/-- The automaton of some arcs accepts the words that are derived from the start
symbol. -/
theorem accepts_ofArcs_iff (hfits : ∀ arc ∈ arcs, arc.Fits g) {w : Word}
    (hw : ∀ c ∈ w, c ∉ g.nonterminals) :
    (ofArcs g arcs).Accepts w ↔ Derives (arcs.map Arc.production) [g.start] w := by
  have hiff := path_ofArcs_iff (b := none) hfits g.wellFormed.start_mem ⟨hw, nofun⟩
  rw [Grammar.stateOf_start, Option.toList_none, List.append_nil] at hiff
  exact (accepts_iff_of_finals rfl).trans hiff

end Nfa

end GrammarAutomata
