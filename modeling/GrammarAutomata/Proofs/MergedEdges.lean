import GrammarAutomata.Dot.Drawing
import GrammarAutomata.Nfa.Transition
import Mathlib.Algebra.GroupWithZero.Nat
import Mathlib.Data.List.FinRange
import Mathlib.Data.List.Induction

/-!
# Merged edges

The transitions of an automaton are listed by source and label, its edges are drawn by source
and target. What the edges have to be is said by `Dot.Merges`: one for each pair of states
that transitions join, in the order of the pairs, with all labels of these transitions in
their order. This leaves no choice (`Dot.Merges.unique`) and loses nothing
(`Dot.Merges.sum_eq_length`).

Two ways lead to such edges: going through the pairs, as drawings do
(`Dot.Steps.merges_edgesOf`), and going through the transitions once, putting each label
behind those that the edge has so far (`Dot.Steps.merges_gather`). So both draw the same
(`Dot.Steps.gather_eq`).
-/

namespace GrammarAutomata

namespace Dot

/-! ## Edges by their ends -/

/-- The states at the ends of an edge. -/
structure Ends where
  /-- where it begins -/
  source : Nat
  /-- where it ends -/
  target : Nat
  deriving DecidableEq

namespace Ends

instance : Ord Ends where
  compare := compareLex (compareOn source) (compareOn target)

instance : Std.TransOrd Ends :=
  inferInstanceAs (Std.TransCmp (compareLex (compareOn source) (compareOn target)))

/-- Edges are drawn by source and then by target. -/
def Before (e e' : Ends) : Prop :=
  e.source < e'.source ∨ e.source = e'.source ∧ e.target < e'.target

theorem compare_eq_lt_iff {e e' : Ends} : compare e e' = .lt ↔ e.Before e' := by
  have hthen : compare e e' = (compare e.source e'.source).then (compare e.target e'.target) := rfl
  rw [hthen, Ordering.then_eq_lt, Nat.compare_eq_lt, Nat.compare_eq_eq, Nat.compare_eq_lt, Before]

instance : Std.LawfulEqOrd Ends where
  compare_self {e} := compareLex_eq_eq.mpr
    ⟨show compare e.source e.source = .eq from Std.ReflCmp.compare_self,
      show compare e.target e.target = .eq from Std.ReflCmp.compare_self⟩
  eq_of_compare {e e'} h := by
    obtain ⟨hs, ht⟩ := compareLex_eq_eq.mp h
    replace hs : compare e.source e'.source = .eq := hs
    replace ht : compare e.target e'.target = .eq := ht
    cases e; cases e'
    cases Std.LawfulEqCmp.eq_of_compare hs
    cases Std.LawfulEqCmp.eq_of_compare ht
    rfl

theorem Before.asymm {e e' : Ends} (h : e.Before e') : ¬ e'.Before e := by
  unfold Before at *
  omega

end Ends

variable {n : Nat} {steps : Nat → List (Label × Nat)} {R : Transition → Prop}
  {es es' : List (Ends × List Label)} {ts : List Transition} {t : Transition} {ends : Ends}

/-- An edge as a pair of its ends and its labels. -/
def Edge.bundle (e : Edge n) : Ends × List Label := (⟨e.source, e.target⟩, e.labels)

/-- The edges `es` stand for the transitions of which `R` holds. -/
structure Merges (R : Transition → Prop) (es : List (Ends × List Label)) : Prop where
  /-- no two edges have the same ends, and they come by source and then by target -/
  ascending : es.Pairwise fun e e' => e.1.Before e'.1
  /-- there is an edge where there is a transition -/
  joined_iff : ∀ ends, (∃ labels, (ends, labels) ∈ es) ↔ ∃ l, R ⟨ends.source, l, ends.target⟩
  /-- labels come in their order, each once -/
  labels_ascending : ∀ ends labels, (ends, labels) ∈ es → labels.Pairwise Label.Before
  /-- they are those of the transitions between the ends -/
  mem_labels_iff : ∀ ends labels, (ends, labels) ∈ es → ∀ l,
    l ∈ labels ↔ R ⟨ends.source, l, ends.target⟩

namespace Merges

theorem nodup (h : Merges R es) : es.Nodup := h.ascending.imp fun hbefore heq => by
  rw [heq] at hbefore
  exact hbefore.asymm hbefore

/-- The labels of an edge are those of the transitions between its ends. -/
theorem labels_eq (h : Merges R es) {labels : List Label} (he : (ends, labels) ∈ es)
    {s : SortedSet Label} (hs : ∀ l, l ∈ s ↔ R ⟨ends.source, l, ends.target⟩) :
    labels = s.toList := by
  have hset : (⟨labels, (h.labels_ascending _ _ he).imp Label.compare_eq_lt_iff.mpr⟩ :
      SortedSet Label) = s :=
    SortedSet.ext fun l => (h.mem_labels_iff _ _ he l).trans (hs l).symm
  exact congrArg SortedSet.toList hset

/-- There is no edge without labels. -/
theorem ne_nil (h : Merges R es) {labels : List Label} (he : (ends, labels) ∈ es) :
    labels ≠ [] := by
  obtain ⟨l, hl⟩ := (h.joined_iff ends).mp ⟨labels, he⟩
  exact List.ne_nil_of_mem ((h.mem_labels_iff _ _ he l).mpr hl)

theorem mem_of_mem (h : Merges R es) (h' : Merges R es') {e : Ends × List Label} (he : e ∈ es) :
    e ∈ es' := by
  obtain ⟨ends, labels⟩ := e
  obtain ⟨labels', he'⟩ := (h'.joined_iff ends).mpr ((h.joined_iff ends).mp ⟨labels, he⟩)
  obtain rfl : labels' = labels := h'.labels_eq he'
    (s := ⟨labels, (h.labels_ascending _ _ he).imp Label.compare_eq_lt_iff.mpr⟩)
    (h.mem_labels_iff _ _ he)
  exact he'

/-- There is only one way to draw the edges. -/
theorem unique (h : Merges R es) (h' : Merges R es') : es = es' := by
  have hperm : es.Perm es' := (List.perm_ext_iff_of_nodup h.nodup h'.nodup).mpr fun _ =>
    ⟨h.mem_of_mem h', h'.mem_of_mem h⟩
  refine hperm.eq_of_pairwise ?_ h.ascending h'.ascending
  intro e e' _ _ hbefore hafter
  exact absurd hafter hbefore.asymm

/-- No transition is lost and none is drawn twice: there are as many labels as transitions. -/
theorem sum_eq_length (h : Merges R es) (hts : ts.Nodup) (hmem : ∀ t, t ∈ ts ↔ R t) :
    (es.map (·.2.length)).sum = ts.length := by
  have hnodup : (es.flatMap fun e => e.2.map fun l =>
      (⟨e.1.source, l, e.1.target⟩ : Transition)).Nodup := by
    refine List.nodup_flatMap.mpr ⟨fun e he => ?_,
      h.ascending.imp fun {e e'} hbefore t ht ht' => ?_⟩
    · exact List.Nodup.map (fun _ _ heq => congrArg Transition.label heq)
        ((h.labels_ascending e.1 e.2 he).imp Label.Before.ne)
    · -- the ends of a transition are those of its edge
      have hends {e : Ends × List Label} (ht : t ∈ e.2.map fun l => ⟨e.1.source, l, e.1.target⟩) :
          e.1 = ⟨t.source, t.target⟩ := by
        obtain ⟨l, _, rfl⟩ := List.mem_map.mp ht
        rfl
      rw [hends ht, hends ht'] at hbefore
      exact hbefore.asymm hbefore
  have hperm := (List.perm_ext_iff_of_nodup hts hnodup).mpr fun t => by
    rw [hmem]
    simp only [List.mem_flatMap, List.mem_map]
    refine ⟨fun ht => ?_, ?_⟩
    · obtain ⟨labels, he⟩ := (h.joined_iff ⟨t.source, t.target⟩).mpr ⟨t.label, ht⟩
      exact ⟨_, he, t.label, (h.mem_labels_iff _ _ he t.label).mpr ht, rfl⟩
    · rintro ⟨e, he, l, hl, rfl⟩
      exact (h.mem_labels_iff e.1 e.2 he l).mp hl
  rw [hperm.length_eq, List.length_flatMap]
  simp only [List.length_map]

end Merges

/-! ## Transitions state by state -/

/-- The transitions in the order in which `n` states list their steps. -/
def transitionsOf (n : Nat) (steps : Nat → List (Label × Nat)) : List Transition :=
  (List.range n).flatMap fun p => (steps p).map fun s => ⟨p, s.1, s.2⟩

theorem mem_transitionsOf :
    t ∈ transitionsOf n steps ↔ t.source < n ∧ (t.label, t.target) ∈ steps t.source := by
  simp only [transitionsOf, List.mem_flatMap, List.mem_range, List.mem_map]
  refine ⟨?_, fun ⟨hlt, h⟩ => ⟨t.source, hlt, _, h, rfl⟩⟩
  rintro ⟨p, hlt, s, hs, rfl⟩
  exact ⟨hlt, hs⟩

/-- Steps lead to one of `n` states, and those to the same state are listed by label. -/
structure Steps (n : Nat) (steps : Nat → List (Label × Nat)) : Prop where
  /-- where they lead there is a state -/
  target_lt : ∀ p, ∀ s ∈ steps p, s.2 < n
  /-- they have different labels, in their order, if they lead to the same state -/
  ascending : ∀ p, (steps p).Pairwise fun s s' => s.2 = s'.2 → s.1.Before s'.1

/-- The ends of the edge that a transition belongs to. -/
def endsOf (t : Transition) : Ends := ⟨t.source, t.target⟩

namespace Steps

variable (h : Steps n steps)
include h

/-- Transitions between the same states are listed by label. -/
theorem pairwise_transitionsOf :
    (transitionsOf n steps).Pairwise fun t t' =>
      endsOf t = endsOf t' → t.label.Before t'.label := by
  refine List.pairwise_flatMap.mpr ⟨fun p _ => ?_,
    List.nodup_range.imp fun hne t ht t' ht' heq => ?_⟩
  · exact List.pairwise_map.mpr ((h.ascending p).imp fun hlabel heq =>
      hlabel (congrArg Ends.target heq))
  · obtain ⟨s, _, rfl⟩ := List.mem_map.mp ht
    obtain ⟨s', _, rfl⟩ := List.mem_map.mp ht'
    exact absurd (congrArg Ends.source heq) hne

theorem nodup_transitionsOf : (transitionsOf n steps).Nodup :=
  h.pairwise_transitionsOf.imp fun hlabel heq => (hlabel (congrArg endsOf heq)).ne
    (congrArg Transition.label heq)

end Steps

/-! ## Going through the pairs -/

theorem pairwise_labelsTo {steps : List (Label × Nat)}
    (h : steps.Pairwise fun s s' => s.2 = s'.2 → s.1.Before s'.1) (q : Nat) :
    (labelsTo steps q).Pairwise Label.Before := by
  refine List.pairwise_map.mpr ((h.filter _).imp_of_mem fun hs hs' hbefore => hbefore ?_)
  have hq := (List.mem_filter.mp hs).2
  have hq' := (List.mem_filter.mp hs').2
  exact (of_decide_eq_true hq).trans (of_decide_eq_true hq').symm

/-- Edges are listed by source and then by target. -/
theorem pairwise_edgesOf :
    (edgesOf n steps).Pairwise fun e e' => e.bundle.1.Before e'.bundle.1 := by
  have hedge {p : Fin n} {q : Nat} {e : Edge n} (he : edge? n p (steps p) q = some e) :
      e.bundle.1 = ⟨p, q⟩ := by
    unfold edge? at he
    split at he
    · cases he
      rfl
    · cases he
  refine List.pairwise_flatMap.mpr ⟨fun p _ => ?_, (List.pairwise_lt_finRange n).imp ?_⟩
  · refine List.pairwise_filterMap.mpr ((SortedSet.sorted _).imp fun hlt e he e' he' => ?_)
    rw [hedge he, hedge he']
    exact .inr ⟨rfl, Nat.compare_eq_lt.mp hlt⟩
  · intro p p' hlt e he e' he'
    obtain ⟨q, _, he⟩ := List.mem_filterMap.mp he
    obtain ⟨q', _, he'⟩ := List.mem_filterMap.mp he'
    rw [hedge he, hedge he']
    exact .inl hlt

/-- The edges that are drawn stand for all transitions. -/
theorem Steps.merges_edgesOf (h : Steps n steps) :
    Merges (· ∈ transitionsOf n steps) ((edgesOf n steps).map Edge.bundle) where
  ascending := List.pairwise_map.mpr pairwise_edgesOf
  joined_iff ends := by
    simp only [mem_transitionsOf, List.mem_map, mem_edgesOf]
    refine ⟨?_, ?_⟩
    · rintro ⟨_, e, ⟨⟨l, hl⟩, _⟩, heq⟩
      obtain rfl := congrArg Prod.fst heq
      exact ⟨l, e.source.2, hl⟩
    · rintro ⟨l, hp, hl⟩
      exact ⟨labelsTo (steps ends.source) ends.target,
        ⟨⟨ends.source, hp⟩, ⟨ends.target, h.target_lt _ _ hl⟩, _⟩, ⟨⟨l, hl⟩, rfl⟩, rfl⟩
  labels_ascending ends labels he := by
    obtain ⟨e, hmem, heq⟩ := List.mem_map.mp he
    obtain rfl := congrArg Prod.snd heq
    rw [Edge.bundle, ← (mem_edgesOf.mp hmem).2]
    exact pairwise_labelsTo (h.ascending _) _
  mem_labels_iff ends labels he l := by
    obtain ⟨e, hmem, heq⟩ := List.mem_map.mp he
    cases heq
    rw [← (mem_edgesOf.mp hmem).2, mem_labelsTo, mem_transitionsOf, and_iff_right e.source.2]

/-! ## Going through the transitions -/

/-- Put the label of a transition behind those that the edge between its ends has so far. -/
def put (edges : Std.TreeMap Ends (List Label)) (t : Transition) : Std.TreeMap Ends (List Label) :=
  edges.alter (endsOf t) fun labels? => some (labels?.getD [] ++ [t.label])

/-- The edges of transitions, gathered one by one. -/
def gather (ts : List Transition) : Std.TreeMap Ends (List Label) := ts.foldl put ∅

/-- The labels of the transitions with the given ends, as they come. -/
def labelsBetween (ts : List Transition) (ends : Ends) : List Label :=
  (ts.filter (endsOf · = ends)).map (·.label)

theorem mem_labelsBetween {l : Label} :
    l ∈ labelsBetween ts ends ↔ ⟨ends.source, l, ends.target⟩ ∈ ts := by
  simp only [labelsBetween, List.mem_map, List.mem_filter, decide_eq_true_eq]
  refine ⟨?_, fun h => ⟨_, ⟨h, rfl⟩, rfl⟩⟩
  rintro ⟨t, ⟨ht, rfl⟩, rfl⟩
  exact ht

theorem labelsBetween_concat (ts : List Transition) (t : Transition) (ends : Ends) :
    labelsBetween (ts ++ [t]) ends =
      labelsBetween ts ends ++ if endsOf t = ends then [t.label] else [] := by
  rw [labelsBetween, List.filter_append, List.map_append, List.filter_singleton]
  by_cases h : endsOf t = ends <;> simp [h, labelsBetween]

theorem getElem?_put {edges : Std.TreeMap Ends (List Label)} : (put edges t)[ends]? =
    if endsOf t = ends then some (edges[ends]?.getD [] ++ [t.label]) else edges[ends]? := by
  rw [put, Std.TreeMap.getElem?_alter]
  by_cases h : endsOf t = ends
  · rw [if_pos h, if_pos (h ▸ Std.ReflCmp.compare_self), h]
  · rw [if_neg h, if_neg (mt Std.LawfulEqCmp.eq_of_compare h)]

/-- Once all transitions are gathered, an edge has the labels of all that have its ends. -/
theorem getElem?_gather (ts : List Transition) (ends : Ends) : (gather ts)[ends]? =
    if labelsBetween ts ends = [] then none else some (labelsBetween ts ends) := by
  induction ts using List.reverseRecOn with
  | nil => rfl
  | append_singleton ts t ih =>
    have hstep : gather (ts ++ [t]) = put (gather ts) t := List.foldl_concat ..
    rw [hstep, getElem?_put, labelsBetween_concat, ih]
    by_cases h : endsOf t = ends
    · rw [if_pos h, if_pos h, if_neg (List.append_ne_nil_of_right_ne_nil _ (List.cons_ne_nil _ _))]
      split
      · rename_i hnone
        rw [hnone]
        rfl
      · rfl
    · rw [if_neg h, if_neg h, List.append_nil]

theorem mem_toList_gather {labels : List Label} :
    (ends, labels) ∈ (gather ts).toList ↔ labels ≠ [] ∧ labelsBetween ts ends = labels := by
  rw [Std.TreeMap.mem_toList_iff_getElem?_eq_some, getElem?_gather]
  split
  · rename_i hnil
    rw [hnil]
    exact iff_of_false nofun fun h => h.1 h.2.symm
  · rename_i hne
    rw [Option.some.injEq]
    exact ⟨fun h => ⟨h ▸ hne, h⟩, And.right⟩

/-- The edges that are gathered stand for all transitions, too. -/
theorem Steps.merges_gather (h : Steps n steps) :
    Merges (· ∈ transitionsOf n steps) (gather (transitionsOf n steps)).toList where
  ascending := Std.TreeMap.ordered_keys_toList.imp Ends.compare_eq_lt_iff.mp
  joined_iff ends := by
    simp only [mem_toList_gather, ← mem_labelsBetween]
    refine ⟨?_, fun ⟨l, hl⟩ => ⟨_, List.ne_nil_of_mem hl, rfl⟩⟩
    rintro ⟨_, hne, rfl⟩
    exact List.exists_mem_of_ne_nil _ hne
  labels_ascending ends labels he := by
    obtain ⟨_, rfl⟩ := mem_toList_gather.mp he
    refine List.pairwise_map.mpr ((h.pairwise_transitionsOf.filter _).imp_of_mem ?_)
    intro t t' ht ht' hbefore
    have hends := of_decide_eq_true (List.mem_filter.mp ht).2
    have hends' := of_decide_eq_true (List.mem_filter.mp ht').2
    exact hbefore (hends.trans hends'.symm)
  mem_labels_iff ends labels he l := by
    obtain ⟨_, rfl⟩ := mem_toList_gather.mp he
    exact mem_labelsBetween

/-- In both ways the edges are the same. -/
theorem Steps.gather_eq (h : Steps n steps) :
    (gather (transitionsOf n steps)).toList = (edgesOf n steps).map Edge.bundle :=
  h.merges_gather.unique h.merges_edgesOf

/-- Together the edges have as many labels as there are transitions. -/
theorem Steps.sum_length_labels (h : Steps n steps) :
    ((edgesOf n steps).map (·.labels.length)).sum = (transitionsOf n steps).length := by
  rw [← h.merges_edgesOf.sum_eq_length h.nodup_transitionsOf fun _ => Iff.rfl, List.map_map]
  rfl

end Dot
end GrammarAutomata
