import GrammarAutomata.Proofs.Items
import GrammarAutomata.Proofs.Listings
import Mathlib.Algebra.GroupWithZero.Nat

/-!
# How many transitions there are

The transitions of an automaton can be counted on any list that has the same, and each of
them once (`NfaStore.numTransitions_eq_length`). For the automaton that goes some arcs such a list
is put together from two parts (`Nfa.numTransitions_ofArcs`). An arc
that reads several symbols has as many transitions, and shares none of them, not even with
an equal arc, since each begins or ends in a state of the arc's own (`nodup_chains`). An
arc that reads one symbol or none has one transition between named states; equal arcs have
the same, different arcs have different ones (`Arc.Fits.eq_of_direct_eq`).
-/

namespace GrammarAutomata

/-! ## Counting without repetitions -/

section

variable {α β : Type} [DecidableEq α] [DecidableEq β] {l l' : List α} {f : α → β}

/-- Lists with the same elements have as many different ones. -/
theorem length_dedup_eq_of_mem_iff (h : ∀ x, x ∈ l ↔ x ∈ l') :
    l.dedup.length = l'.dedup.length := by
  refine ((List.perm_ext_iff_of_nodup (List.nodup_dedup l) (List.nodup_dedup l')).mpr ?_).length_eq
  simpa only [List.mem_dedup] using h

/-- Where different elements become different ones, there are as many. -/
theorem length_dedup_map (h : ∀ x ∈ l, ∀ y ∈ l, f x = f y → x = y) :
    (l.map f).dedup.length = l.dedup.length := by
  have hnodup : (l.dedup.map f).Nodup := List.Nodup.map_on
    (fun x hx y hy => h x (List.mem_dedup.mp hx) y (List.mem_dedup.mp hy)) (List.nodup_dedup l)
  have hperm : (l.map f).dedup.Perm (l.dedup.map f) :=
    (List.perm_ext_iff_of_nodup (List.nodup_dedup _) hnodup).mpr fun y => by
      simp only [List.mem_dedup, List.mem_map]
  rw [hperm.length_eq, List.length_map]

end

/-! ## Transitions of chains -/

variable {g : Grammar} {arcs : List Arc} {arc arc' : Arc} {next source target : Nat} {word : Word}

/-- The transition of an arc that reads one symbol or none. -/
def Arc.direct (g : Grammar) (arc : Arc) : Transition where
  source := g.stateOf (some arc.source)
  label := match arc.word with
    | [] => .epsilon
    | c :: _ => .symbol c
  target := g.stateOf arc.target

theorem Word.eq_nil_or_singleton (h : word.length ≤ 1) : word = [] ∨ ∃ c, word = [c] := by
  match word with
  | [] => exact .inl rfl
  | [c] => exact .inr ⟨c, rfl⟩
  | c :: d :: word =>
    simp only [List.length_cons] at h
    omega

theorem Arc.word_label_direct (h : arc.word.length ≤ 1) : (arc.direct g).label.word = arc.word := by
  obtain ⟨source, word, target⟩ := arc
  rcases Word.eq_nil_or_singleton h with rfl | ⟨c, rfl⟩ <;> rfl

theorem chain_eq_direct (h : arc.word.length ≤ 1) :
    chain next (g.stateOf (some arc.source)) arc.word (g.stateOf arc.target) = [arc.direct g] := by
  obtain ⟨source, word, target⟩ := arc
  rcases Word.eq_nil_or_singleton h with rfl | ⟨c, rfl⟩ <;> rfl

/-- Arcs that read one symbol or none pass through no states, so the chains of the others are
numbered as if there were no more arcs. -/
theorem mem_chains_iff_of_lengths {t : Transition} : t ∈ chains g next arcs ↔
    t ∈ chains g next (arcs.filter (2 ≤ ·.word.length)) ∨
      t ∈ (arcs.filter (·.word.length ≤ 1)).map (Arc.direct g) := by
  induction arcs generalizing next with
  | nil => simp [chains]
  | cons arc arcs ih =>
    by_cases hlong : 2 ≤ arc.word.length
    · have hnot : ¬ arc.word.length ≤ 1 := Nat.not_le.mpr hlong
      rw [List.filter_cons_of_pos (by simpa using hlong),
        List.filter_cons_of_neg (by simpa using hnot), chains, chains, List.mem_append,
        List.mem_append, ih, or_assoc]
    · have hshort : arc.word.length ≤ 1 := Nat.le_of_lt_succ (Nat.lt_of_not_le hlong)
      have hinner : arc.inner = 0 := Nat.sub_eq_zero_of_le hshort
      rw [List.filter_cons_of_neg (by simpa using hlong),
        List.filter_cons_of_pos (by simpa using hshort), chains, chain_eq_direct hshort, hinner,
        List.singleton_append, List.mem_cons, ih, List.map_cons, List.mem_cons, Nat.add_zero,
        or_left_comm]

theorem length_chain (h : word ≠ []) : (chain next source word target).length = word.length := by
  fun_induction chain next source word target with
  | case1 => exact absurd rfl h
  | case2 => rfl
  | case3 next source c d word target ih => rw [List.length_cons, ih (List.cons_ne_nil _ _)]; rfl

/-- Behind its first transition a chain is in states of its own. -/
theorem source_of_mem_chain : ∀ t ∈ chain next source word target,
    t.source = source ∨ next ≤ t.source := by
  fun_induction chain next source word target with
  | case1 => simp
  | case2 => simp
  | case3 next source c d word target ih =>
    intro t ht
    rcases List.mem_cons.mp ht with rfl | ht
    · exact .inl rfl
    · rcases ih t ht with heq | hle
      · exact .inr (Nat.le_of_eq heq.symm)
      · exact .inr (Nat.le_of_succ_le hle)

theorem nodup_chain (h : source < next) : (chain next source word target).Nodup := by
  fun_induction chain next source word target with
  | case1 => exact List.nodup_singleton _
  | case2 => exact List.nodup_singleton _
  | case3 next source c d word target ih =>
    refine List.nodup_cons.mpr ⟨fun hmem => ?_, ih (Nat.lt_succ_self next)⟩
    rcases source_of_mem_chain _ hmem with heq | hle
    · exact absurd heq (Nat.ne_of_lt h)
    · exact absurd (Nat.lt_trans h hle) (Nat.lt_irrefl _)

/-- The states that only one chain passes through. -/
def Own (next inner q : Nat) : Prop := next ≤ q ∧ q < next + inner

theorem own_station (source target : Nat) {i inner : Nat} (h : i < inner) :
    Own next inner (station source (next + ·) inner target (i + 1)) := by
  rw [station, if_pos h]
  exact ⟨Nat.le_add_right next i, Nat.add_lt_add_left h next⟩

/-- Each transition of a chain that reads several symbols begins or ends inside it. -/
theorem own_of_mem_chain (h : 2 ≤ word.length) : ∀ t ∈ chain next source word target,
    Own next (word.length - 1) t.source ∨ Own next (word.length - 1) t.target := by
  intro t ht
  obtain ⟨i, l, hl, rfl⟩ := mem_chain_iff.mp ht
  have hi := (List.getElem?_eq_some_iff.mp hl).1
  rw [Word.length_labels] at hi
  cases i with
  | zero => exact .inr (own_station source target (Nat.sub_pos_of_lt h))
  | succ i => exact .inl (own_station source target (Nat.lt_of_succ_lt_succ hi))

/-- Chains whose own states are numbered from `next` on begin and end there or in named
states. -/
theorem ends_of_mem_chains : ∀ t ∈ chains g next arcs,
    (t.source ≤ g.acceptState ∨ next ≤ t.source) ∧
      (t.target ≤ g.acceptState ∨ next ≤ t.target) := by
  have hlane {arc : Arc} {first : Nat} (h : (arc, first) ∈ lanes next arcs) (i : Nat) :
      laneState g arc first i ≤ g.acceptState ∨ next ≤ laneState g arc first i := by
    cases i with
    | zero => exact .inl (Grammar.stateOf_le (some arc.source))
    | succ i =>
      rw [laneState, station]
      split
      · exact .inr (Nat.le_trans (le_of_mem_lanes h) (Nat.le_add_right first i))
      · exact .inl (Grammar.stateOf_le arc.target)
  intro t ht
  obtain ⟨arc, first, h, ht⟩ := mem_chains_iff.mp ht
  obtain ⟨i, l, _, rfl⟩ := mem_chain_iff.mp ht
  exact ⟨hlane h i, hlane h (i + 1)⟩

/-- No two chains share a transition. -/
theorem nodup_chains (hlong : ∀ arc ∈ arcs, 2 ≤ arc.word.length) (hnext : g.acceptState < next) :
    (chains g next arcs).Nodup := by
  induction arcs generalizing next with
  | nil => exact List.nodup_nil
  | cons arc arcs ih =>
    obtain ⟨harc, hlong⟩ := List.forall_mem_cons.mp hlong
    have hsource : g.stateOf (some arc.source) < next :=
      Nat.lt_of_le_of_lt (Grammar.stateOf_le _) hnext
    refine List.nodup_append.mpr ⟨nodup_chain hsource,
      ih hlong (Nat.lt_of_lt_of_le hnext (Nat.le_add_right _ _)), ?_⟩
    rintro s hs _ ht rfl
    -- what is the first chain's own is no end of the others
    have hnot {q : Nat} (hown : Own next arc.inner q) :
        ¬ (q ≤ g.acceptState ∨ next + arc.inner ≤ q) := by
      rintro (hle | hle)
      · exact absurd (Nat.lt_of_lt_of_le hnext hown.1) (Nat.not_lt.mpr hle)
      · exact absurd hown.2 (Nat.not_lt.mpr hle)
    obtain ⟨hsource, htarget⟩ := ends_of_mem_chains s ht
    rcases own_of_mem_chain harc s hs with hown | hown
    · exact hnot hown hsource
    · exact hnot hown htarget

/-- Chains that read several symbols have no transition between named states. -/
theorem acceptState_lt_of_mem_chains (hlong : ∀ arc ∈ arcs, 2 ≤ arc.word.length)
    (hnext : g.acceptState < next) :
    ∀ t ∈ chains g next arcs, g.acceptState < t.source ∨ g.acceptState < t.target := by
  intro t ht
  obtain ⟨arc, first, hlane, ht⟩ := mem_chains_iff.mp ht
  have hfirst := Nat.lt_of_lt_of_le hnext (le_of_mem_lanes hlane)
  exact (own_of_mem_chain (hlong arc (mem_of_mem_lanes hlane)) t ht).imp
    (fun h => Nat.lt_of_lt_of_le hfirst h.1) fun h => Nat.lt_of_lt_of_le hfirst h.1

/-- Chains that read several symbols have one transition for each. -/
theorem length_chains (hlong : ∀ arc ∈ arcs, 2 ≤ arc.word.length) :
    (chains g next arcs).length = (arcs.map (·.word.length)).sum := by
  induction arcs generalizing next with
  | nil => rfl
  | cons arc arcs ih =>
    obtain ⟨harc, hlong⟩ := List.forall_mem_cons.mp hlong
    have hne : arc.word ≠ [] := List.ne_nil_of_length_pos (Nat.lt_of_lt_of_le Nat.zero_lt_two harc)
    rw [chains, List.length_append, length_chain hne, ih hlong, List.map_cons, List.sum_cons]

/-! ## Direct transitions -/

/-- Arcs that read one symbol or none are told by their transitions. -/
theorem Arc.Fits.eq_of_direct_eq (hfits : arc.Fits g) (hfits' : arc'.Fits g)
    (hlength : arc.word.length ≤ 1) (hlength' : arc'.word.length ≤ 1)
    (h : arc.direct g = arc'.direct g) : arc = arc' := by
  have hsource : some arc.source = some arc'.source := Grammar.stateOf_inj
    (fun x hx => Option.mem_some_iff.mp hx ▸ hfits.source_mem)
    (fun x hx => Option.mem_some_iff.mp hx ▸ hfits'.source_mem) (congrArg Transition.source h)
  have htarget : arc.target = arc'.target :=
    Grammar.stateOf_inj hfits.target_mem hfits'.target_mem (congrArg Transition.target h)
  have hword : arc.word = arc'.word := by
    rw [← word_label_direct hlength, ← word_label_direct hlength', h]
  cases arc
  cases arc'
  cases hsource
  cases hword
  cases htarget
  rfl

namespace Nfa

/-- **How many transitions there are.** Each arc that reads several symbols adds as many, even
if it is listed again. The others add one each, but only once. -/
theorem numTransitions_ofArcs (hfits : ∀ arc ∈ arcs, arc.Fits g) :
    (ofArcs g arcs).numTransitions =
      ((arcs.map (·.word.length)).filter (2 ≤ ·)).sum +
        (arcs.filter (·.word.length ≤ 1)).dedup.length := by
  have hlong : ∀ arc ∈ arcs.filter (2 ≤ ·.word.length), 2 ≤ arc.word.length := fun arc harc =>
    of_decide_eq_true (List.mem_filter.mp harc).2
  have hshort : ∀ arc ∈ arcs.filter (·.word.length ≤ 1), arc.Fits g ∧ arc.word.length ≤ 1 :=
    fun arc harc => ⟨hfits arc (List.mem_filter.mp harc).1,
      of_decide_eq_true (List.mem_filter.mp harc).2⟩
  have hnext : g.acceptState < g.acceptState + 1 := Nat.lt_succ_self _
  -- a direct transition joins named states, so it is none of a chain
  have hnodup : (chains g (g.acceptState + 1) (arcs.filter (2 ≤ ·.word.length)) ++
      ((arcs.filter (·.word.length ≤ 1)).map (Arc.direct g)).dedup).Nodup := by
    refine List.nodup_append.mpr ⟨nodup_chains hlong hnext, List.nodup_dedup _, ?_⟩
    rintro s hs _ ht rfl
    obtain ⟨arc, _, rfl⟩ := List.mem_map.mp (List.mem_dedup.mp ht)
    exact (acceptState_lt_of_mem_chains hlong hnext _ hs).elim
      (Nat.not_lt.mpr (Grammar.stateOf_le (some arc.source)))
      (Nat.not_lt.mpr (Grammar.stateOf_le arc.target))
  have hmem (t : Transition) : t ∈ (ofArcs g arcs).transitions ↔
      t ∈ chains g (g.acceptState + 1) (arcs.filter (2 ≤ ·.word.length)) ++
        ((arcs.filter (·.word.length ≤ 1)).map (Arc.direct g)).dedup := by
    rw [mem_transitions_ofArcs, mem_chains_iff_of_lengths, List.mem_append, List.mem_dedup]
  rw [NfaStore.numTransitions_eq_length hnodup hmem, List.length_append, length_chains hlong,
    List.filter_map]
  refine congrArg _ (length_dedup_map fun arc harc arc' harc' => ?_)
  obtain ⟨hfit, hlength⟩ := hshort arc harc
  obtain ⟨hfit', hlength'⟩ := hshort arc' harc'
  exact hfit.eq_of_direct_eq hfit' hlength hlength'

end Nfa

end GrammarAutomata
