import GrammarAutomata.Proofs.Arcs
import GrammarAutomata.Proofs.LinearBodies

/-!
# Grammars without an automaton

A grammar that is not linear is refused as a whole. In a linear one a production can
still offend, by an empty body or, where these are rejected, by a body that is a
nonterminal alone (`Grammar.Offends`). A production has an arc, read in its
direction, if and only if it does not offend (`Grammar.arc_eq_error_iff`); since the
productions are gone through in order, the first that offends is the one that the
error shows (`Grammar.arcs_eq_error_iff`). A nonterminal that is out of place is
never reported: no body of a linear grammar has one.
-/

namespace GrammarAutomata

namespace Grammar

variable (g : Grammar)

/-- Why a production keeps a linear grammar from having an automaton. -/
inductive Offends (units : UnitProductions) : Production → ArcError → Prop
  | emptyBody (a : Char) : Offends units ⟨a, []⟩ .emptyBody
  | unitProduction (a : Char) {b : Char} : units = .reject → b ∈ g.nonterminals →
    Offends units ⟨a, [b]⟩ (.unitProduction b)

/-- No production before number `index` offends, but that one does. -/
structure FirstOffence (units : UnitProductions) (index : Nat) (p : Production)
    (reason : ArcError) : Prop where
  /-- the production as it stands in the grammar -/
  listed : g.productions[index]? = some p
  /-- what is wrong with it -/
  offends : g.Offends units p reason
  /-- nothing is wrong with those before it -/
  first : ∀ j q reason', j < index → g.productions[j]? = some q → ¬ g.Offends units q reason'

variable {g} {units : UnitProductions} {direction : Direction} {p : Production} {last : Char}
  {reason : ArcError}

/-! ## One production -/

/-- A production offends as much when it is read backwards. -/
theorem offends_read_iff : g.Offends units (direction.read p) reason ↔
    g.Offends units p reason := by
  have hreversed {q : Production} (h : g.Offends units q reason) :
      g.Offends units q.reversed reason := by
    cases h with
    | emptyBody a => exact .emptyBody a
    | unitProduction a hunits hb => exact .unitProduction a hunits hb
  cases direction with
  | right => exact Iff.rfl
  | left => exact ⟨fun h => p.reversed_reversed ▸ hreversed h, hreversed⟩

/-- The arc of a right-linear production reads terminals only. -/
theorem allTerminal_word_arcUpTo (h : g.RightLinearBody p.body)
    (hlast : p.body.getLast? = some last) : g.AllTerminal (g.arcUpTo p last).word := by
  rw [arcUpTo]
  split
  · exact h.allTerminal_dropLast
  · rename_i hnot
    obtain ⟨u, b, hbody, hu, hb⟩ := h
    cases b with
    | none =>
      rw [hbody, Option.toList_none, List.append_nil]
      exact hu
    | some a =>
      rw [hbody, Option.toList_some, List.getLast?_concat] at hlast
      exact absurd (hb a rfl) (Option.some.inj hlast ▸ hnot)

/-- An arc that reads nothing is that of a nonterminal alone. -/
theorem word_arcUpTo_eq_nil_iff (hlast : p.body.getLast? = some last) :
    (g.arcUpTo p last).word = [] ↔ last ∈ g.nonterminals ∧ p.body = [last] := by
  obtain ⟨u, hbody⟩ := List.getLast?_eq_some_iff.mp hlast
  rw [arcUpTo]
  split
  · rename_i hmem
    simp [hbody, hmem]
  · rename_i hnot
    simp [hbody, hnot]

/-- Where nothing is out of place there is an arc, unless it reads nothing and that is
rejected. -/
theorem arc_eq_of_settled (hlast : p.body.getLast? = some last)
    (hword : ∀ c ∈ (g.arcUpTo p last).word, c ∉ g.nonterminals) :
    g.arc units p = if (last ∈ g.nonterminals ∧ p.body = [last]) ∧ units = .reject
      then .error (.unitProduction last) else .ok (g.arcUpTo p last) := by
  have hnone : (g.arcUpTo p last).word.find? (· ∈ g.nonterminals) = none := by
    simpa using hword
  simp only [arc, hlast, hnone, word_arcUpTo_eq_nil_iff hlast]

/-- A right-linear production fails to have an arc for the reason by which it
offends. -/
theorem arc_eq_error_iff (h : g.RightLinearBody p.body) :
    g.arc units p = .error reason ↔ g.Offends units p reason := by
  obtain ⟨a, body⟩ := p
  cases hlast : body.getLast? with
  | none =>
    obtain rfl : body = [] := List.getLast?_eq_none_iff.mp hlast
    refine ⟨?_, ?_⟩
    · intro herror
      cases herror
      exact .emptyBody a
    · intro hoffends
      cases hoffends
      rfl
  | some last =>
    rw [arc_eq_of_settled hlast
      (not_mem_nonterminals_of_allTerminal (allTerminal_word_arcUpTo h hlast))]
    refine ⟨?_, ?_⟩
    · intro herror
      split at herror
      · rename_i hunit
        obtain ⟨⟨hmem, rfl⟩, hunits⟩ := hunit
        cases herror
        exact .unitProduction a hunits hmem
      · cases herror
    · intro hoffends
      cases hoffends with
      | emptyBody => cases hlast
      | @unitProduction _ b hunits hmem =>
        obtain rfl : b = last := Option.some.inj hlast
        rw [if_pos ⟨⟨hmem, rfl⟩, hunits⟩]

theorem exists_arc_iff (h : g.RightLinearBody p.body) :
    (∃ arc, g.arc units p = .ok arc) ↔ ∀ reason, ¬ g.Offends units p reason := by
  refine ⟨?_, ?_⟩
  · rintro ⟨arc, harc⟩ reason hoffends
    cases harc.symm.trans ((arc_eq_error_iff h).mpr hoffends)
  · intro hnot
    cases harc : g.arc units p with
    | error reason => exact absurd ((arc_eq_error_iff h).mp harc) (hnot reason)
    | ok arc => exact ⟨arc, rfl⟩

/-- An arc that there is where unit productions are rejected there is anyhow. -/
theorem arc_epsilon_of_arc {arc : Arc} (h : g.arc units p = .ok arc) :
    g.arc .epsilon p = .ok arc := by
  obtain ⟨last, hlast, rfl, hword⟩ := exists_last_of_arc h
  rw [arc_eq_of_settled hlast hword, if_neg nofun]

/-! ## All productions -/

/-- Numbered, the productions stand at their numbers. -/
theorem getElem?_zipIdx_iff {i : Nat} {x : Production × Nat} :
    g.productions.zipIdx[i]? = some x ↔ g.productions[i]? = some x.1 ∧ x.2 = i := by
  obtain ⟨p, k⟩ := x
  simp only [List.getElem?_zipIdx, Option.map_eq_some_iff, Prod.mk.injEq, Nat.zero_add]
  exact ⟨fun ⟨q, hq, hqp, hk⟩ => ⟨hqp ▸ hq, hk.symm⟩, fun ⟨hp, hk⟩ => ⟨p, hp, rfl, hk.symm⟩⟩

/-- What is wrong with the productions is what is wrong with the first that
offends. -/
theorem arcs_eq_error_iff {e : Error}
    (h : ∀ p ∈ g.productions, g.RightLinearBody (direction.read p).body) :
    g.arcs units direction = .error e ↔ ∃ index p reason,
      e = .malformedProduction index p reason ∧ g.FirstOffence units index p reason := by
  have hbody {i : Nat} {p : Production} (hp : g.productions[i]? = some p) :
      g.RightLinearBody (direction.read p).body := h p (List.mem_of_getElem? hp)
  rw [arcs, mapM_eq_error_iff]
  -- that the productions before the first error have arcs says that none of them offends
  refine ⟨?_, ?_⟩
  · rintro ⟨i, x, hfirst, herror⟩
    obtain ⟨hp, rfl⟩ := getElem?_zipIdx_iff.mp hfirst.get
    obtain ⟨reason, hreason, rfl⟩ := mapError_eq_error_iff.mp herror
    refine ⟨x.2, x.1, reason, rfl, hp, ?_, ?_⟩
    · exact offends_read_iff.mp ((arc_eq_error_iff (hbody hp)).mp hreason)
    · intro j q reason' hj hq hoffends
      obtain ⟨arc, hok⟩ := hfirst.before j (q, j) hj (getElem?_zipIdx_iff.mpr ⟨hq, rfl⟩)
      exact (exists_arc_iff (hbody hq)).mp ⟨arc, mapError_eq_ok_iff.mp hok⟩ reason'
        (offends_read_iff.mpr hoffends)
  · rintro ⟨index, p, reason, rfl, hfirst⟩
    have hreason := (arc_eq_error_iff (hbody hfirst.listed)).mpr
      (offends_read_iff.mpr hfirst.offends)
    refine ⟨index, (p, index), ⟨getElem?_zipIdx_iff.mpr ⟨hfirst.listed, rfl⟩, ?_⟩,
      mapError_eq_error_iff.mpr ⟨reason, hreason, rfl⟩⟩
    intro j x hj hx
    obtain ⟨hq, rfl⟩ := getElem?_zipIdx_iff.mp hx
    obtain ⟨arc, hok⟩ := (exists_arc_iff (hbody hq)).mpr fun reason' hoffends =>
      hfirst.first x.2 x.1 reason' hj hq (offends_read_iff.mp hoffends)
    exact ⟨arc, mapError_eq_ok_iff.mpr hok⟩

theorem exists_arcs_iff
    (h : ∀ p ∈ g.productions, g.RightLinearBody (direction.read p).body) :
    (∃ arcs, g.arcs units direction = .ok arcs) ↔
      ∀ p ∈ g.productions, ∀ reason, ¬ g.Offends units p reason := by
  refine ⟨?_, ?_⟩
  · rintro ⟨arcs, harcs⟩ p hp reason hoffends
    obtain ⟨arc, _, harc⟩ := exists_arc_of_mem harcs hp
    exact (exists_arc_iff (h p hp)).mp ⟨arc, harc⟩ reason (offends_read_iff.mpr hoffends)
  · intro hnot
    cases harcs : g.arcs units direction with
    | error e =>
      obtain ⟨index, p, reason, _, hfirst⟩ := (arcs_eq_error_iff h).mp harcs
      exact absurd hfirst.offends (hnot p (List.mem_of_getElem? hfirst.listed) reason)
    | ok arcs => exact ⟨arcs, rfl⟩

theorem arcs_epsilon_of_arcs {arcs : List Arc} (h : g.arcs units direction = .ok arcs) :
    g.arcs .epsilon direction = .ok arcs := by
  refine mapM_eq_ok_of_imp ?_ h
  intro x arc hx
  exact mapError_eq_ok_iff.mpr (arc_epsilon_of_arc (mapError_eq_ok_iff.mp hx))

end Grammar

namespace Nfa

variable {g : Grammar} {options : Options}

/-! ## The grammar -/

/-- The automaton of a right-linear grammar goes the arcs of its productions. -/
theorem ofGrammar_of_isRightLinear (h : g.IsRightLinear) :
    ofGrammar g options = (g.arcs options.unitProductions .right).map (ofArcs g) := by
  rcases Grammar.classify_of_isRightLinear h with hclass | hclass <;> rw [ofGrammar, hclass]

/-- That of a left-linear grammar goes the arcs of its productions read backwards, and
is turned around. -/
theorem ofGrammar_of_isLeftLinear (hnot : ¬ g.IsRightLinear) (h : g.IsLeftLinear) :
    ofGrammar g options =
      (g.arcs options.unitProductions .left).map fun arcs => (ofArcs g arcs).reverse := by
  rw [ofGrammar, Grammar.classify_of_isLeftLinear hnot h]

/-- The automaton of a linear grammar is made of the arcs of its productions, read in
one direction or the other. -/
theorem exists_direction_of_linear (h : g.Linear) : ∃ (direction : Direction)
    (automaton : List Arc → Nfa), (∀ p ∈ g.productions, g.RightLinearBody (direction.read p).body) ∧
      ∀ options, ofGrammar g options =
        (g.arcs options.unitProductions direction).map automaton := by
  by_cases hright : g.IsRightLinear
  · exact ⟨.right, ofArcs g, Grammar.isRightLinear_iff.mp hright,
      fun options => ofGrammar_of_isRightLinear hright⟩
  · have hleft : g.IsLeftLinear := (Grammar.isRegular_iff.mpr h).resolve_left hright
    refine ⟨.left, fun arcs => (ofArcs g arcs).reverse, ?_,
      fun options => ofGrammar_of_isLeftLinear hright hleft⟩
    intro p hp
    exact Grammar.rightLinearBody_reverse_iff.mpr (Grammar.isLeftLinear_iff.mp hleft p hp)

theorem ofGrammar_of_not_linear (h : ¬ g.Linear) :
    ofGrammar g options = .error (.unsupportedClass .contextFree) := by
  rw [ofGrammar, Grammar.classify_of_not_isRegular (mt Grammar.isRegular_iff.mp h)]

/-- In a linear grammar the error is that of the first production that offends. -/
theorem ofGrammar_eq_error_iff (h : g.Linear) {e : Error} :
    ofGrammar g options = .error e ↔ ∃ index p reason,
      e = .malformedProduction index p reason ∧
        g.FirstOffence options.unitProductions index p reason := by
  obtain ⟨direction, automaton, hbody, heq⟩ := exists_direction_of_linear h
  rw [heq, map_eq_error_iff, Grammar.arcs_eq_error_iff hbody]

/-- A linear grammar of which no production offends has an automaton. -/
theorem exists_ofGrammar_iff (h : g.Linear) : (∃ n, ofGrammar g options = .ok n) ↔
    ∀ p ∈ g.productions, ∀ reason, ¬ g.Offends options.unitProductions p reason := by
  obtain ⟨direction, automaton, hbody, heq⟩ := exists_direction_of_linear h
  rw [heq, ← Grammar.exists_arcs_iff hbody]
  refine ⟨?_, ?_⟩
  · rintro ⟨n, hn⟩
    obtain ⟨arcs, harcs, _⟩ := exists_of_map_eq_ok hn
    exact ⟨arcs, harcs⟩
  · rintro ⟨arcs, harcs⟩
    exact ⟨automaton arcs, by rw [harcs]; rfl⟩

/-- The options decide whether there is an automaton, but not which one. -/
theorem ofGrammar_default_of_ofGrammar {n : Nfa} (h : ofGrammar g options = .ok n) :
    ofGrammar g {} = .ok n := by
  by_cases hlinear : g.Linear
  · obtain ⟨direction, automaton, _, heq⟩ := exists_direction_of_linear hlinear
    rw [heq] at h ⊢
    obtain ⟨arcs, harcs, rfl⟩ := exists_of_map_eq_ok h
    rw [Grammar.arcs_epsilon_of_arcs harcs]
    rfl
  · rw [ofGrammar_of_not_linear hlinear] at h
    cases h

/-- **Which grammars are refused, and why.** Those that are not linear, as
context-free; of the others those with a production that has an empty body or is a
rejected unit production, and the error shows the first of these as it stands in the
grammar. There are no other errors, and where rejecting unit productions makes no
error it makes no difference. -/
theorem ofGrammar_outcome (g : Grammar) (options : Options) :
    (ofGrammar g options = .error (.unsupportedClass .contextFree) ↔ ¬ g.Linear) ∧
    (∀ index p reason, ofGrammar g options = .error (.malformedProduction index p reason) ↔
      g.Linear ∧ g.FirstOffence options.unitProductions index p reason) ∧
    ((∃ n, ofGrammar g options = .ok n) ↔
      g.Linear ∧ ∀ p ∈ g.productions, ∀ reason, ¬ g.Offends options.unitProductions p reason) ∧
    (∀ e, ofGrammar g options = .error e → e = .unsupportedClass .contextFree ∨
      ∃ index p, e = .malformedProduction index p .emptyBody ∨
        ∃ b, e = .malformedProduction index p (.unitProduction b)) ∧
    ∀ n, ofGrammar g options = .ok n → ofGrammar g {} = .ok n := by
  by_cases hlinear : g.Linear
  · refine ⟨?_, ?_, ?_, ?_, fun n => ofGrammar_default_of_ofGrammar⟩
    · refine iff_of_false (fun h => ?_) (not_not_intro hlinear)
      obtain ⟨_, _, _, h, _⟩ := (ofGrammar_eq_error_iff hlinear).mp h
      cases h
    · intro index p reason
      rw [ofGrammar_eq_error_iff hlinear]
      refine ⟨?_, fun h => ⟨index, p, reason, rfl, h.2⟩⟩
      rintro ⟨_, _, _, h, hfirst⟩
      cases h
      exact ⟨hlinear, hfirst⟩
    · rw [exists_ofGrammar_iff hlinear, and_iff_right hlinear]
    · intro e he
      obtain ⟨index, p, reason, rfl, hfirst⟩ := (ofGrammar_eq_error_iff hlinear).mp he
      cases hfirst.offends with
      | emptyBody => exact .inr ⟨index, _, .inl rfl⟩
      | unitProduction => exact .inr ⟨index, _, .inr ⟨_, rfl⟩⟩
  · have herror : ofGrammar g options = .error (.unsupportedClass .contextFree) :=
      ofGrammar_of_not_linear hlinear
    refine ⟨iff_of_true herror hlinear, ?_, ?_, ?_, fun n => ofGrammar_default_of_ofGrammar⟩
    · intro index p reason
      rw [herror]
      exact iff_of_false nofun fun h => hlinear h.1
    · rw [herror]
      exact iff_of_false nofun fun h => hlinear h.1
    · intro e he
      rw [herror] at he
      cases he
      exact .inl rfl

/-- A left-linear grammar in which a unit production stands before an empty body. -/
def offendingSample : Grammar where
  nonterminals := {'A', 'S'}
  terminals := {'a', 'b'}
  start := 'S'
  productions := [⟨'S', ['A', 'b', 'a']⟩, ⟨'A', ['S']⟩, ⟨'A', []⟩]
  wellFormed := Draft.defect?_eq_none_iff.mp (by decide)

/-- A left-linear grammar with a terminal in each body. -/
def inoffensiveSample : Grammar where
  nonterminals := {'A', 'S'}
  terminals := {'a', 'b'}
  start := 'S'
  productions := [⟨'S', ['A', 'b', 'a']⟩, ⟨'A', ['S', 'b']⟩, ⟨'A', ['a', 'a']⟩]
  wellFormed := Draft.defect?_eq_none_iff.mp (by decide)

/-- Which production is the first depends on what is rejected. -/
theorem ofGrammar_outcome_samples :
    ofGrammar offendingSample ⟨.reject, none⟩ =
      .error (.malformedProduction 1 ⟨'A', ['S']⟩ (.unitProduction 'S')) ∧
    ofGrammar offendingSample {} = .error (.malformedProduction 2 ⟨'A', []⟩ .emptyBody) ∧
    ∃ n, ofGrammar inoffensiveSample ⟨.reject, none⟩ = .ok n ∧
      ofGrammar inoffensiveSample {} = .ok n := by
  have hlinear : offendingSample.Linear := Grammar.isRegular_iff.mp (by decide)
  refine ⟨?_, ?_, ?_⟩
  · refine ((ofGrammar_outcome offendingSample ⟨.reject, none⟩).2.1 _ _ _).mpr ⟨hlinear, rfl, ?_, ?_⟩
    · exact .unitProduction 'A' rfl (by decide)
    · intro j q reason hj hq hoffends
      obtain rfl : j = 0 := Nat.lt_one_iff.mp hj
      cases hq
      cases hoffends
  · refine ((ofGrammar_outcome offendingSample {}).2.1 _ _ _).mpr ⟨hlinear, rfl, .emptyBody 'A', ?_⟩
    intro j q reason hj hq hoffends
    match j with
    | 0 => cases hq; cases hoffends
    | 1 => cases hq; cases hoffends with | unitProduction _ hunits _ => cases hunits
  · have hlong : ∀ p ∈ inoffensiveSample.productions, 2 ≤ p.body.length := by decide
    have hok := (ofGrammar_outcome inoffensiveSample ⟨.reject, none⟩).2.2.1
    obtain ⟨n, hn⟩ := hok.mpr ⟨Grammar.isRegular_iff.mp (by decide), fun p hp reason hoffends => by
      have := hlong p hp
      cases hoffends <;> simp at this⟩
    exact ⟨n, hn, (ofGrammar_outcome inoffensiveSample _).2.2.2.2 n hn⟩

end Nfa

end GrammarAutomata
