import GrammarAutomata.FirstError
import GrammarAutomata.Nfa.OfGrammar

/-!
# Arcs and productions

An arc stands for the production that it goes (`Arc.production`). Where a grammar
has its arcs, they stand for its productions as they are read, one by one
(`Grammar.map_arc_eq`), and no body is empty; each arc leads from a nonterminal to a
nonterminal, or to acceptance, and reads none on its way (`Arc.Fits`).
-/

namespace GrammarAutomata

/-! ## What an arc stands for -/

/-- The production that an arc goes. -/
def Arc.production (arc : Arc) : Production := ⟨arc.source, arc.word ++ arc.target.toList⟩

/-- An arc leads from a nonterminal to a nonterminal, or to acceptance, and reads
none. -/
structure Arc.Fits (g : Grammar) (arc : Arc) : Prop where
  /-- it begins in the state of a nonterminal -/
  source_mem : arc.source ∈ g.nonterminals
  /-- it reads no nonterminals -/
  word_settled : ∀ c ∈ arc.word, c ∉ g.nonterminals
  /-- it ends in the state of a nonterminal, unless it ends in the accepting one -/
  target_mem : ∀ b ∈ arc.target, b ∈ g.nonterminals

/-! ## The arc of a production -/

namespace Grammar

variable {g : Grammar} {units : UnitProductions} {direction : Direction} {arcs : List Arc}
  {arc : Arc} {p : Production}

/-- A production that has an arc has a last symbol, and the arc is the one up to it. -/
theorem exists_last_of_arc (h : g.arc units p = .ok arc) :
    ∃ last, p.body.getLast? = some last ∧ arc = g.arcUpTo p last ∧
      ∀ c ∈ arc.word, c ∉ g.nonterminals := by
  unfold Grammar.arc at h
  split at h
  · cases h
  · rename_i last hlast
    dsimp only at h
    split at h
    · cases h
    · rename_i hword
      split at h
      · cases h
      · cases h
        refine ⟨last, hlast, rfl, fun c hc => ?_⟩
        simpa using List.find?_eq_none.mp hword c hc

theorem production_arcUpTo {last : Char} (h : p.body.getLast? = some last) :
    (g.arcUpTo p last).production = p := by
  obtain ⟨lhs, body⟩ := p
  obtain ⟨before, rfl⟩ := List.getLast?_eq_some_iff.mp h
  unfold arcUpTo
  split <;> simp [Arc.production]

theorem target_arcUpTo_mem {last : Char} : ∀ b ∈ (g.arcUpTo p last).target, b ∈ g.nonterminals := by
  intro b hb
  unfold arcUpTo at hb
  split at hb
  · rename_i hmem
    exact Option.mem_some_iff.mp hb ▸ hmem
  · cases hb

/-- The arc of a production goes that production. -/
theorem production_of_arc (h : g.arc units p = .ok arc) : arc.production = p := by
  obtain ⟨last, hlast, rfl, _⟩ := exists_last_of_arc h
  exact production_arcUpTo hlast

theorem body_ne_nil_of_arc (h : g.arc units p = .ok arc) : p.body ≠ [] := by
  obtain ⟨last, hlast, _⟩ := exists_last_of_arc h
  rintro hnil
  rw [hnil] at hlast
  cases hlast

theorem fits_of_arc (hp : p.lhs ∈ g.nonterminals) (h : g.arc units p = .ok arc) : arc.Fits g := by
  have hproduction := production_of_arc h
  obtain ⟨last, _, rfl, hword⟩ := exists_last_of_arc h
  exact ⟨by rw [← hproduction] at hp; exact hp, hword, target_arcUpTo_mem⟩

/-! ## The arcs of a grammar -/

/-- Production by production, the arcs are those of the productions as they are
read. -/
theorem map_arc_eq (h : g.arcs units direction = .ok arcs) :
    g.productions.map (fun p => g.arc units (direction.read p)) = arcs.map .ok := by
  replace h := map_eq_of_mapM h
  generalize g.productions = ps, 0 = k at h
  induction ps generalizing k arcs with
  | nil => cases arcs with
    | nil => rfl
    | cons => cases h
  | cons p ps ih => cases arcs with
    | nil => cases h
    | cons arc arcs =>
      obtain ⟨hp, hps⟩ := List.cons.inj h
      rw [List.map_cons, List.map_cons, mapError_eq_ok_iff.mp hp, ih _ hps]

/-- What is the same for an arc as for its production is so one by one. -/
theorem map_eq_map_of_arcs {β : Type} {f : Arc → β} {k : Production → β}
    (h : g.arcs units direction = .ok arcs) (hk : ∀ p ∈ g.productions, ∀ arc,
      g.arc units (direction.read p) = .ok arc → f arc = k p) :
    arcs.map f = g.productions.map k := by
  replace h := map_arc_eq h
  generalize g.productions = ps at h hk
  induction ps generalizing arcs with
  | nil => cases arcs with
    | nil => rfl
    | cons => cases h
  | cons p ps ih => cases arcs with
    | nil => cases h
    | cons arc arcs =>
      obtain ⟨hp, hps⟩ := List.cons.inj h
      rw [List.map_cons, List.map_cons, hk p List.mem_cons_self arc hp,
        ih hps fun q hq => hk q (List.mem_cons_of_mem p hq)]

theorem exists_arc_of_mem (h : g.arcs units direction = .ok arcs) (hp : p ∈ g.productions) :
    ∃ arc ∈ arcs, g.arc units (direction.read p) = .ok arc := by
  have hmem : g.arc units (direction.read p) ∈ arcs.map .ok := by
    rw [← map_arc_eq h]
    exact List.mem_map_of_mem hp
  obtain ⟨arc, harc, heq⟩ := List.mem_map.mp hmem
  exact ⟨arc, harc, heq.symm⟩

theorem exists_production_of_mem (h : g.arcs units direction = .ok arcs) (harc : arc ∈ arcs) :
    ∃ p ∈ g.productions, g.arc units (direction.read p) = .ok arc := by
  have hmem : .ok arc ∈ g.productions.map (fun p => g.arc units (direction.read p)) := by
    rw [map_arc_eq h]
    exact List.mem_map_of_mem harc
  exact List.mem_map.mp hmem

@[simp] theorem lhs_read : (direction.read p).lhs = p.lhs := by cases direction <;> rfl

theorem mem_body_read_iff {c : Char} : c ∈ (direction.read p).body ↔ c ∈ p.body := by
  cases direction with
  | right => exact Iff.rfl
  | left => exact List.mem_reverse

/-- What an arc reads stands in the body. -/
theorem mem_body_of_mem_word {c : Char} (h : g.arc units (direction.read p) = .ok arc)
    (hc : c ∈ arc.word) : c ∈ p.body := by
  have hmem : c ∈ (direction.read p).body := by
    rw [← production_of_arc h]
    exact List.mem_append_left _ hc
  exact mem_body_read_iff.mp hmem

/-- Where all productions have arcs, the arcs go the productions as they are read. -/
theorem mem_map_production_iff (h : g.arcs units direction = .ok arcs) :
    p ∈ arcs.map Arc.production ↔ p ∈ g.productions.map direction.read := by
  rw [map_eq_map_of_arcs h fun _ _ _ => production_of_arc]

theorem fits_of_arc_read (hp : p ∈ g.productions)
    (h : g.arc units (direction.read p) = .ok arc) : arc.Fits g :=
  fits_of_arc (by rw [lhs_read]; exact g.wellFormed.lhs_mem p hp) h

theorem fits_of_mem_arcs (h : g.arcs units direction = .ok arcs) : ∀ arc ∈ arcs, arc.Fits g := by
  intro arc harc
  obtain ⟨p, hp, heq⟩ := exists_production_of_mem h harc
  exact fits_of_arc_read hp heq

/-- An arc reads terminals only. -/
theorem allTerminal_word_of_arc_read (hp : p ∈ g.productions)
    (h : g.arc units (direction.read p) = .ok arc) : g.AllTerminal arc.word := by
  intro c hc
  exact (g.wellFormed.body_mem p hp c (mem_body_of_mem_word h hc)).resolve_right
    ((fits_of_arc_read hp h).word_settled c hc)

theorem allTerminal_word_of_mem_arcs (h : g.arcs units direction = .ok arcs) :
    ∀ arc ∈ arcs, g.AllTerminal arc.word := by
  intro arc harc
  obtain ⟨p, hp, heq⟩ := exists_production_of_mem h harc
  exact allTerminal_word_of_arc_read hp heq

/-- Where all productions have arcs, no body is empty. -/
theorem body_ne_nil_of_arcs (h : g.arcs units direction = .ok arcs) :
    ∀ p ∈ g.productions, p.body ≠ [] := by
  intro p hp
  obtain ⟨arc, _, heq⟩ := exists_arc_of_mem h hp
  have hne := body_ne_nil_of_arc heq
  cases direction with
  | right => exact hne
  | left => exact fun hnil => hne (by simp [Direction.read, Production.reversed, hnil])

end Grammar

end GrammarAutomata
