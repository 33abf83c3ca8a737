import GrammarAutomata.Proofs.Chains
import GrammarAutomata.Proofs.Refusals

/-!
# Renaming nonterminals and listing productions otherwise

One grammar can be written down in many ways: its nonterminals can have other names, and
its productions can be listed in another order or several times (`Grammar.Renames`). What
holds of the productions and arcs of a grammar then holds of those of the other. Most of
it needs no more than that the one grammar is found in the other under different names
(`Grammar.Embeds`); a renaming goes both ways (`Grammar.Renames.exists_back`).
-/

namespace GrammarAutomata

theorem map_eq_self {f : Char → Char} {w : Word} (h : ∀ c ∈ w, f c = c) : w.map f = w := by
  rw [List.map_congr_left h]
  exact List.map_id' w

/-- The production in other symbols. -/
def Production.rename (f : Char → Char) (p : Production) : Production := ⟨f p.lhs, p.body.map f⟩

/-- The arc between nonterminals with other names. -/
def Arc.rename (f : Char → Char) (arc : Arc) : Arc := ⟨f arc.source, arc.word, arc.target.map f⟩

namespace Grammar

/-- Under the names that `f` gives, `g'` is `g` with its productions listed in any order
and any number of times. -/
structure Renames (f : Char → Char) (g g' : Grammar) : Prop where
  /-- different nonterminals get different names -/
  injective : ∀ a ∈ g.nonterminals, ∀ b ∈ g.nonterminals, f a = f b → a = b
  /-- terminals keep theirs -/
  fixed : ∀ c ∈ g.terminals, f c = c
  /-- the terminals are the same -/
  terminals : g'.terminals = g.terminals
  /-- the nonterminals are those that were renamed -/
  mem_nonterminals_iff : ∀ b, b ∈ g'.nonterminals ↔ ∃ a ∈ g.nonterminals, f a = b
  /-- so is the start symbol -/
  start : g'.start = f g.start
  /-- and the productions are the same, each listed at least once -/
  mem_productions_iff : ∀ p, p ∈ g'.productions ↔ ∃ q ∈ g.productions, q.rename f = p

/-- All of `g` is found in `g'` under the names that `f` gives. -/
structure Embeds (f : Char → Char) (g g' : Grammar) : Prop where
  /-- nonterminals become nonterminals -/
  nonterminal : ∀ a ∈ g.nonterminals, f a ∈ g'.nonterminals
  /-- terminals keep their names -/
  fixed : ∀ c ∈ g.terminals, f c = c
  /-- the terminals are the same -/
  terminals : g'.terminals = g.terminals
  /-- derivations begin with the same nonterminal -/
  start : g'.start = f g.start
  /-- productions become productions -/
  production : ∀ p ∈ g.productions, p.rename f ∈ g'.productions

variable {f : Char → Char} {g g' : Grammar} {units : UnitProductions} {direction : Direction}
  {arcs arcs' : List Arc} {options : Options}

/-! ## There and back -/

theorem Renames.embeds (h : Renames f g g') : Embeds f g g' where
  nonterminal a ha := (h.mem_nonterminals_iff (f a)).mpr ⟨a, ha, rfl⟩
  fixed := h.fixed
  terminals := h.terminals
  start := h.start
  production p hp := (h.mem_productions_iff (p.rename f)).mpr ⟨p, hp, rfl⟩

/-- The renaming can be undone. -/
theorem Renames.exists_back (h : Renames f g g') : ∃ f', Embeds f' g' g ∧
    (∀ a ∈ g.nonterminals, f' (f a) = a) ∧ ∀ b ∈ g'.nonterminals, f (f' b) = b := by
  have hold : ∀ c, ∃ c', (∀ a ∈ g.nonterminals, f a = c → c' = a) ∧
      (c ∈ g'.terminals → c' = c) := by
    intro c
    by_cases hc : ∃ a ∈ g.nonterminals, f a = c
    · obtain ⟨a, ha, rfl⟩ := hc
      refine ⟨a, fun b hb heq => (h.injective b hb a ha heq).symm, fun hterminal => ?_⟩
      exact absurd (h.embeds.nonterminal a ha) (g'.wellFormed.not_both _ hterminal)
    · exact ⟨c, fun a ha heq => absurd ⟨a, ha, heq⟩ hc, fun _ => rfl⟩
  choose f' hname hfixed using hold
  have hback : ∀ a ∈ g.nonterminals, f' (f a) = a := fun a ha => hname (f a) a ha rfl
  -- back and forth, a production of `g` is what it was
  have hproduction : ∀ q ∈ g.productions, (q.rename f).rename f' = q := by
    intro q hq
    have hbody : (q.body.map f).map f' = q.body := by
      rw [List.map_map]
      refine map_eq_self fun c hc => ?_
      rcases g.wellFormed.body_mem q hq c hc with hterminal | hnonterminal
      · show f' (f c) = c
        rw [h.fixed c hterminal]
        exact hfixed c (h.terminals ▸ hterminal)
      · exact hback c hnonterminal
    rw [Production.rename, Production.rename, hbody, hback q.lhs (g.wellFormed.lhs_mem q hq)]
  refine ⟨f', ⟨?_, hfixed, h.terminals.symm, ?_, ?_⟩, hback, ?_⟩
  · intro b hb
    obtain ⟨a, ha, rfl⟩ := (h.mem_nonterminals_iff b).mp hb
    rw [hback a ha]
    exact ha
  · rw [h.start, hback g.start g.wellFormed.start_mem]
  · intro p hp
    obtain ⟨q, hq, rfl⟩ := (h.mem_productions_iff p).mp hp
    rw [hproduction q hq]
    exact hq
  · intro b hb
    obtain ⟨a, ha, rfl⟩ := (h.mem_nonterminals_iff b).mp hb
    rw [hback a ha]

/-! ## Linearity and offences -/

namespace Embeds

/-- What is a terminal under its new name was one. -/
theorem mem_terminals (h : Embeds f g g') {c : Char} (hc : c ∈ g.terminals ∨ c ∈ g.nonterminals)
    (hf : f c ∈ g'.terminals) : c ∈ g.terminals :=
  hc.resolve_right fun hnonterminal =>
    g'.wellFormed.not_both _ hf (h.nonterminal c hnonterminal)

theorem allTerminal (h : Embeds f g g') {w : Word}
    (hw : ∀ c ∈ w, c ∈ g.terminals ∨ c ∈ g.nonterminals) (hf : g'.AllTerminal (w.map f)) :
    g.AllTerminal w := fun c hc => h.mem_terminals (hw c hc) (hf (f c) (List.mem_map_of_mem hc))

theorem isRightLinear (h : Embeds f g g') (hlinear : g'.IsRightLinear) : g.IsRightLinear := by
  refine ⟨g.isContextFree, fun p hp => h.allTerminal (fun c hc => ?_) ?_⟩
  · exact g.wellFormed.body_mem p hp c (List.dropLast_subset _ hc)
  · rw [List.map_dropLast]
    exact hlinear.2 _ (h.production p hp)

theorem isLeftLinear (h : Embeds f g g') (hlinear : g'.IsLeftLinear) : g.IsLeftLinear := by
  refine ⟨g.isContextFree, fun p hp => h.allTerminal (fun c hc => ?_) ?_⟩
  · exact g.wellFormed.body_mem p hp c (List.mem_of_mem_tail hc)
  · rw [List.map_tail]
    exact hlinear.2 _ (h.production p hp)

/-- A production offends under any name. -/
theorem exists_offends (h : Embeds f g g') {p : Production} {reason : ArcError}
    (hoffends : g.Offends units p reason) : ∃ reason', g'.Offends units (p.rename f) reason' := by
  cases hoffends with
  | emptyBody a => exact ⟨_, .emptyBody (f a)⟩
  | unitProduction a hunits hb => exact ⟨_, .unitProduction (f a) hunits (h.nonterminal _ hb)⟩

end Embeds

/-- What offends in a grammar offends in the other. -/
theorem Embeds.exists_malformed (h : Embeds f g g') (hlinear : g'.Linear) {p : Production}
    {reason : ArcError} (hp : p ∈ g.productions)
    (hoffends : g.Offends options.unitProductions p reason) : ∃ index p' reason',
      Nfa.ofGrammar g' options = .error (.malformedProduction index p' reason') := by
  obtain ⟨reason', hoffends'⟩ := h.exists_offends hoffends
  cases heq : Nfa.ofGrammar g' options with
  | error e =>
    obtain ⟨index, p', reason', rfl, _⟩ := (Nfa.ofGrammar_eq_error_iff hlinear).mp heq
    exact ⟨index, p', reason', rfl⟩
  | ok n =>
    have hnot := (Nfa.exists_ofGrammar_iff hlinear).mp ⟨n, heq⟩
    exact absurd hoffends' (hnot _ (h.production p hp) reason')

/-- A renamed grammar is linear on the same side. -/
theorem Renames.isRightLinear_iff (h : Renames f g g') : g.IsRightLinear ↔ g'.IsRightLinear := by
  obtain ⟨f', hback, _⟩ := h.exists_back
  exact ⟨hback.isRightLinear, h.embeds.isRightLinear⟩

theorem Renames.isLeftLinear_iff (h : Renames f g g') : g.IsLeftLinear ↔ g'.IsLeftLinear := by
  obtain ⟨f', hback, _⟩ := h.exists_back
  exact ⟨hback.isLeftLinear, h.embeds.isLeftLinear⟩

theorem Renames.linear_iff (h : Renames f g g') : g.Linear ↔ g'.Linear := by
  rw [← isRegular_iff, ← isRegular_iff]
  exact or_congr h.isRightLinear_iff h.isLeftLinear_iff

end Grammar

/-! ## Arcs -/

namespace Arc

variable {f f' : Char → Char} {g : Grammar} {arc arc' : Arc}

/-- An arc is told by the production it goes. -/
theorem Fits.eq_of_production_eq (h : arc.Fits g) (h' : arc'.Fits g)
    (heq : arc.production = arc'.production) : arc = arc' := by
  obtain ⟨source, word, target⟩ := arc
  obtain ⟨source', word', target'⟩ := arc'
  obtain ⟨hsource, hbody⟩ := Production.mk.inj heq
  have hsettled : Settled g word target := ⟨h.word_settled, h.target_mem⟩
  obtain ⟨hword, htarget⟩ := hsettled.unique ⟨h'.word_settled, h'.target_mem⟩ hbody
  exact congr (congr (congrArg Arc.mk hsource) hword) htarget

theorem production_rename (hf : ∀ c ∈ arc.word, f c = c) :
    (arc.rename f).production = arc.production.rename f := by
  have hword : arc.word.map f = arc.word := map_eq_self hf
  simp [production, rename, Production.rename, hword, Option.toList_map]

theorem rename_rename (hf : ∀ a ∈ g.nonterminals, f' (f a) = a) (h : arc.Fits g) :
    (arc.rename f).rename f' = arc := by
  obtain ⟨source, word, target⟩ := arc
  have htarget : (target.map f).map f' = target := by
    cases target with
    | none => rfl
    | some b => exact congrArg some (hf b (h.target_mem b rfl))
  rw [rename, rename, htarget, hf source h.source_mem]

end Arc

namespace Grammar

variable {f : Char → Char} {g g' : Grammar} {units : UnitProductions} {direction : Direction}
  {arcs arcs' : List Arc}

theorem read_rename {p : Production} :
    direction.read (p.rename f) = (direction.read p).rename f := by
  cases direction with
  | right => rfl
  | left => simp [Direction.read, Production.reversed, Production.rename]

/-- The arcs of a grammar are found among those of the other. -/
theorem Embeds.rename_mem_arcs (h : Embeds f g g') (harcs : g.arcs units direction = .ok arcs)
    (harcs' : g'.arcs units direction = .ok arcs') : ∀ arc ∈ arcs, arc.rename f ∈ arcs' := by
  intro arc harc
  have hfits := fits_of_mem_arcs harcs arc harc
  have hterminal := allTerminal_word_of_mem_arcs harcs arc harc
  obtain ⟨p, hp, heq⟩ := exists_production_of_mem harcs harc
  obtain ⟨arc', harc', heq'⟩ := exists_arc_of_mem harcs' (h.production p hp)
  have hproduction : (arc.rename f).production = arc'.production := by
    rw [Arc.production_rename fun c hc => h.fixed c (hterminal c hc), production_of_arc heq,
      production_of_arc heq', read_rename]
  have hfits' : (arc.rename f).Fits g' := by
    refine ⟨h.nonterminal _ hfits.source_mem, fun c hc => ?_, fun b hb => ?_⟩
    · exact g'.wellFormed.not_both c (h.terminals ▸ hterminal c hc)
    · obtain ⟨a, ha, rfl⟩ := Option.map_eq_some_iff.mp hb
      exact h.nonterminal a (hfits.target_mem a ha)
  rw [hfits'.eq_of_production_eq (fits_of_mem_arcs harcs' arc' harc') hproduction]
  exact harc'

end Grammar

end GrammarAutomata
