import GrammarAutomata.Proofs.Chains

/-!
# Items

Where an automaton that goes some arcs can be, said without numbers: in the state of a
nonterminal, in the accepting state, or at some place inside the chain of an arc. An arc
that is listed several times has several chains, and states at the same place of them
have the same item.

Every state has an item (`items`), and a transition leads from one item of an arc to the
next (`Nfa.mem_transitions_ofArcs_iff`). A state that has an item of an arc stands on a
chain of that arc (`exists_lane_of_item`), so from there the chain can be followed on or
back.
-/

namespace GrammarAutomata

/-- Where an automaton is, apart from which of several chains of an arc it is on. -/
inductive Item where
  /-- in the state of a nonterminal, or in the accepting one -/
  | named (b : Option Char)
  /-- inside the chain of an arc, in state `i` of those that are its own -/
  | inside (arc : Arc) (i : Nat)

/-- The kind of the states with an item. -/
def Item.kind : Item → StateKind
  | .named (some a) => .nonterminal a
  | .named none => .accept
  | .inside _ _ => .intermediate

/-- What is met on the way along a chain: its source, what is inside it, its target. -/
def station {α : Type} (source : α) (inside : Nat → α) (inner : Nat) (target : α) : Nat → α
  | 0 => source
  | i + 1 => if i < inner then inside i else target

/-- The items of an arc. -/
def Arc.item (arc : Arc) : Nat → Item :=
  station (.named (some arc.source)) (.inside arc) arc.inner (.named arc.target)

/-- The items of the states that only its chain passes through. -/
def Arc.innerItems (arc : Arc) : List Item := (List.range arc.inner).map (.inside arc)

/-- The item of each state: nonterminals, acceptance, chains. -/
def items (g : Grammar) (arcs : List Arc) : List Item :=
  g.stateOrder.map (fun a => .named (some a)) ++ .named none :: arcs.flatMap Arc.innerItems

/-- What the transitions of a chain read that reads the word. -/
def Word.labels : Word → List Label
  | [] => [.epsilon]
  | c :: w => .symbol c :: w.map .symbol

/-- The arcs, each with the number of the first state that only its chain passes
through. -/
def lanes (next : Nat) : List Arc → List (Arc × Nat)
  | [] => []
  | arc :: arcs => (arc, next) :: lanes (next + arc.inner) arcs

/-- The states on the way along the chain of an arc whose own states are numbered from
`first` on. -/
def laneState (g : Grammar) (arc : Arc) (first : Nat) : Nat → Nat :=
  station (g.stateOf (some arc.source)) (first + ·) arc.inner (g.stateOf arc.target)

variable {g : Grammar} {arcs : List Arc} {arc : Arc} {next first i k q : Nat}

theorem Word.symbol_mem_labels_iff {w : Word} {c : Char} : .symbol c ∈ w.labels ↔ c ∈ w := by
  cases w <;> simp [labels]

theorem Word.length_labels (w : Word) : w.labels.length = w.length - 1 + 1 := by
  cases w <;> simp [labels]

/-! ## Chains and lanes -/

theorem station_succ {source target : Nat} :
    station source (next + ·) (k + 1) target (i + 1) =
      station next (next + 1 + ·) k target i := by
  cases i with
  | zero => simp [station]
  | succ i => simp [station, Nat.add_assoc, Nat.add_comm 1]

/-- The transitions of a chain lead from one station to the next. -/
theorem mem_chain_iff {source target : Nat} {word : Word} {t : Transition} :
    t ∈ chain next source word target ↔ ∃ (i : Nat) (l : Label), word.labels[i]? = some l ∧
      t = ⟨station source (next + ·) (word.length - 1) target i, l,
        station source (next + ·) (word.length - 1) target (i + 1)⟩ := by
  have hsingle {l : Label} {next source target : Nat} {t : Transition} :
      t ∈ [Transition.mk source l target] ↔ ∃ (i : Nat) (l' : Label), [l][i]? = some l' ∧
        t = ⟨station source (next + ·) 0 target i, l',
          station source (next + ·) 0 target (i + 1)⟩ := by
    rw [List.mem_singleton]
    refine ⟨?_, ?_⟩
    · rintro rfl
      exact ⟨0, l, rfl, rfl⟩
    · rintro ⟨i, l', hl, rfl⟩
      cases i with
      | zero => cases hl; rfl
      | succ i => cases hl
  fun_induction chain next source word target with
  | case1 => exact hsingle
  | case2 => exact hsingle
  | case3 next source c d word target ih =>
    have hlength : (c :: d :: word).length - 1 = (d :: word).length - 1 + 1 := rfl
    rw [hlength]
    refine (List.mem_cons.trans (or_congr_right ih)).trans ⟨?_, ?_⟩
    · rintro (rfl | ⟨i, l, hl, rfl⟩)
      · exact ⟨0, .symbol c, rfl, by rw [station_succ]; rfl⟩
      · exact ⟨i + 1, l, hl, by rw [station_succ, station_succ]⟩
    · rintro ⟨i, l, hl, rfl⟩
      cases i with
      | zero =>
        cases hl
        rw [station_succ]
        exact .inl rfl
      | succ i =>
        rw [station_succ, station_succ]
        exact .inr ⟨i, l, hl, rfl⟩

theorem mem_chains_iff {t : Transition} : t ∈ chains g next arcs ↔ ∃ arc first,
    (arc, first) ∈ lanes next arcs ∧
      t ∈ chain first (g.stateOf (some arc.source)) arc.word (g.stateOf arc.target) := by
  induction arcs generalizing next with
  | nil => simp [chains, lanes]
  | cons a arcs ih =>
    rw [chains, List.mem_append, ih]
    refine ⟨?_, ?_⟩
    · rintro (ht | ⟨arc, first, hlane, ht⟩)
      · exact ⟨a, next, List.mem_cons_self, ht⟩
      · exact ⟨arc, first, List.mem_cons_of_mem _ hlane, ht⟩
    · rintro ⟨arc, first, hlane, ht⟩
      rcases List.mem_cons.mp hlane with heq | hlane
      · cases heq
        exact .inl ht
      · exact .inr ⟨arc, first, hlane, ht⟩

theorem exists_lane_of_mem (next : Nat) (h : arc ∈ arcs) :
    ∃ first, (arc, first) ∈ lanes next arcs := by
  induction arcs generalizing next with
  | nil => exact absurd h List.not_mem_nil
  | cons a arcs ih =>
    rcases List.mem_cons.mp h with rfl | h
    · exact ⟨next, List.mem_cons_self⟩
    · obtain ⟨first, hlane⟩ := ih (next + a.inner) h
      exact ⟨first, List.mem_cons_of_mem _ hlane⟩

theorem mem_of_mem_lanes (h : (arc, first) ∈ lanes next arcs) : arc ∈ arcs := by
  induction arcs generalizing next with
  | nil => exact absurd h List.not_mem_nil
  | cons a arcs ih =>
    rcases List.mem_cons.mp h with heq | h
    · cases heq
      exact List.mem_cons_self
    · exact List.mem_cons_of_mem _ (ih h)

theorem le_of_mem_lanes (h : (arc, first) ∈ lanes next arcs) : next ≤ first := by
  induction arcs generalizing next with
  | nil => exact absurd h List.not_mem_nil
  | cons a arcs ih =>
    rcases List.mem_cons.mp h with heq | h
    · cases heq
      exact Nat.le_refl _
    · exact Nat.le_trans (Nat.le_add_right ..) (ih h)

/-! ## The items of states -/

/-- Behind the named states, those that are on one chain only come chain by chain. -/
theorem getElem?_innerItems_iff (next : Nat) :
    (arcs.flatMap Arc.innerItems)[k]? = some (.inside arc i) ↔ ∃ first,
      (arc, first) ∈ lanes next arcs ∧ i < arc.inner ∧ next + k = first + i := by
  induction arcs generalizing next k with
  | nil => simp [lanes]
  | cons a arcs ih =>
    have hlength : a.innerItems.length = a.inner := by simp [Arc.innerItems]
    rw [List.flatMap_cons, List.getElem?_append, hlength]
    split
    · rename_i hk
      have hget : a.innerItems[k]? = some (.inside a k) := by simp [Arc.innerItems, hk]
      rw [hget, Option.some.injEq, Item.inside.injEq]
      refine ⟨?_, ?_⟩
      · rintro ⟨rfl, rfl⟩
        exact ⟨next, List.mem_cons_self, hk, rfl⟩
      · rintro ⟨first, hlane, hi, heq⟩
        rcases List.mem_cons.mp hlane with hhead | hlane
        · cases hhead
          exact ⟨rfl, Nat.add_left_cancel heq⟩
        · -- the chains behind have higher numbers
          have := le_of_mem_lanes hlane
          omega
    · rename_i hk
      rw [ih (next + a.inner), lanes]
      have hsum : next + a.inner + (k - a.inner) = next + k := by omega
      rw [hsum]
      refine ⟨?_, ?_⟩
      · rintro ⟨first, hlane, h⟩
        exact ⟨first, List.mem_cons_of_mem _ hlane, h⟩
      · rintro ⟨first, hlane, hi, heq⟩
        rcases List.mem_cons.mp hlane with hhead | hlane
        · cases hhead
          omega
        · exact ⟨first, hlane, hi, heq⟩

/-- The kinds of states are those of their items. -/
theorem map_kind_items : (items g arcs).map Item.kind = Nfa.kindsOf g arcs := by
  have hinner : (arcs.flatMap Arc.innerItems).map Item.kind =
      List.replicate (innerStates arcs) .intermediate := by
    induction arcs with
    | nil => rfl
    | cons arc arcs ih =>
      rw [List.flatMap_cons, List.map_append, ih, innerStates, ← List.replicate_append_replicate]
      simp [Arc.innerItems, Function.comp_def, Item.kind]
  simp [items, Nfa.kindsOf, hinner, Function.comp_def, Item.kind]

theorem getElem?_items_named_iff {b : Option Char} : (items g arcs)[q]? = some (.named b) ↔
    (∀ a ∈ b, a ∈ g.nonterminals) ∧ q = g.stateOf b := by
  have hkind : (items g arcs)[q]? = some (.named b) ↔
      (Nfa.kindsOf g arcs)[q]? = some (Item.named b).kind := by
    rw [← map_kind_items, List.getElem?_map, Option.map_eq_some_iff]
    refine ⟨fun h => ⟨_, h, rfl⟩, ?_⟩
    rintro ⟨x, hx, hkind⟩
    rcases x with ⟨_ | a⟩ | _ <;> rcases b with _ | b <;> cases hkind
    · exact hx
    · exact hx
  rw [hkind]
  cases b with
  | none => simpa [Item.kind] using Nfa.getElem?_kindsOf_accept_iff
  | some b => simpa [Item.kind] using Nfa.getElem?_kindsOf_nonterminal_iff

/-- Different nonterminals have different states, and acceptance has another. -/
theorem Grammar.stateOf_inj {a b : Option Char} (ha : ∀ x ∈ a, x ∈ g.nonterminals)
    (hb : ∀ x ∈ b, x ∈ g.nonterminals) (h : g.stateOf a = g.stateOf b) : a = b := by
  have hitem : (items g [])[g.stateOf a]? = some (.named a) :=
    getElem?_items_named_iff.mpr ⟨ha, rfl⟩
  rw [getElem?_items_named_iff.mpr ⟨hb, h⟩] at hitem
  exact (Item.named.inj (Option.some.inj hitem)).symm

theorem getElem?_items_inside_iff : (items g arcs)[q]? = some (.inside arc i) ↔
    ∃ first, (arc, first) ∈ lanes (g.acceptState + 1) arcs ∧ i < arc.inner ∧ q = first + i := by
  have hlength : (g.stateOrder.map fun a => Item.named (some a)).length = g.acceptState := by
    simp [Grammar.acceptState]
  rw [items, List.append_cons, List.getElem?_append, List.length_append, hlength,
    List.length_singleton]
  split
  · rename_i hq
    refine iff_of_false (fun h => ?_) ?_
    · have hmem := List.mem_of_getElem? h
      simp at hmem
    · rintro ⟨first, hlane, _, rfl⟩
      have := le_of_mem_lanes hlane
      omega
  · rename_i hq
    rw [getElem?_innerItems_iff (g.acceptState + 1)]
    have hsum : g.acceptState + 1 + (q - (g.acceptState + 1)) = q := by omega
    rw [hsum]

/-- Along the chain of an arc the states have the items of the arc. -/
theorem getElem?_items_laneState (hfits : arc.Fits g)
    (h : (arc, first) ∈ lanes (g.acceptState + 1) arcs) :
    (items g arcs)[laneState g arc first i]? = some (arc.item i) := by
  rw [laneState, Arc.item]
  cases i with
  | zero =>
    refine getElem?_items_named_iff.mpr ⟨fun a ha => ?_, rfl⟩
    exact Option.mem_some_iff.mp ha ▸ hfits.source_mem
  | succ i =>
    rw [station, station]
    split
    · rename_i hi
      exact getElem?_items_inside_iff.mpr ⟨first, h, hi, rfl⟩
    · exact getElem?_items_named_iff.mpr ⟨hfits.target_mem, rfl⟩

/-- A state with an item of an arc stands at that place of a chain of the arc. -/
theorem exists_lane_of_item (harc : arc ∈ arcs) (h : (items g arcs)[q]? = some (arc.item i)) :
    ∃ first, (arc, first) ∈ lanes (g.acceptState + 1) arcs ∧ q = laneState g arc first i := by
  obtain ⟨first, hlane⟩ := exists_lane_of_mem (g.acceptState + 1) harc
  rw [Arc.item] at h
  cases i with
  | zero => exact ⟨first, hlane, (getElem?_items_named_iff.mp h).2⟩
  | succ i =>
    rw [station] at h
    split at h
    · rename_i hi
      obtain ⟨first, hlane, _, rfl⟩ := getElem?_items_inside_iff.mp h
      exact ⟨first, hlane, by rw [laneState, station, if_pos hi]⟩
    · rename_i hi
      exact ⟨first, hlane, by rw [laneState, station, if_neg hi, (getElem?_items_named_iff.mp h).2]⟩

namespace Nfa

/-- A transition leads along the chain of an arc to the next state. -/
theorem mem_transitions_ofArcs_iff {t : Transition} : t ∈ (ofArcs g arcs).transitions ↔
    ∃ (arc : Arc) (first i : Nat) (l : Label), (arc, first) ∈ lanes (g.acceptState + 1) arcs ∧
      arc.word.labels[i]? = some l ∧
      t = ⟨laneState g arc first i, l, laneState g arc first (i + 1)⟩ := by
  simp only [mem_transitions_ofArcs, mem_chains_iff, mem_chain_iff]
  refine ⟨?_, ?_⟩
  · rintro ⟨arc, first, hlane, i, l, hl, rfl⟩
    exact ⟨arc, first, i, l, hlane, hl, rfl⟩
  · rintro ⟨arc, first, i, l, hlane, hl, rfl⟩
    exact ⟨arc, first, hlane, i, l, hl, rfl⟩

/-- There is an item for each state and for nothing else. -/
theorem length_items : (items g arcs).length = (ofArcs g arcs).size := by
  rw [← length_kinds, kinds_ofArcs, ← map_kind_items, List.length_map]

end Nfa

end GrammarAutomata
