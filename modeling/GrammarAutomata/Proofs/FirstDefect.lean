import GrammarAutomata.Grammar.Defect

/-!
# The first defect

A draft is written down with lists, in which symbols may come in any order and more than
once. What is wrong with it is said here over these lists, by rules that name no search
(`Draft.FirstDefect`): the least symbol that is in both lists; if there is none, a start
symbol that is no nonterminal; and otherwise what is wrong with a production before which
all productions are as declared. Validation reports exactly this
(`Draft.defect?_eq_some_iff`), so it accepts a draft if and only if no rule applies
(`Draft.first_defect_is_reported`).
-/

namespace GrammarAutomata

/-- What is found first in a set is the least member that fits. -/
theorem SortedSet.find?_eq_some_iff {α : Type} [Ord α] [Std.TransOrd α] {s : SortedSet α}
    {p : α → Bool} {a : α} : s.toList.find? p = some a ↔
      (a ∈ s ∧ p a = true) ∧ ∀ b ∈ s, p b = true → compare b a ≠ .lt := by
  rw [List.find?_eq_some_iff_append]
  refine ⟨?_, ?_⟩
  · rintro ⟨ha, before, after, hlist, hbefore⟩
    have hmem {b : α} : b ∈ s ↔ b ∈ before ∨ b = a ∨ b ∈ after := by
      rw [← SortedSet.mem_toList, hlist, List.mem_append, List.mem_cons]
    have hsorted := hlist ▸ s.sorted
    refine ⟨⟨hmem.mpr (.inr (.inl rfl)), ha⟩, fun b hb hpb hlt => ?_⟩
    rcases hmem.mp hb with hb | rfl | hb
    · exact absurd hpb (by simpa using hbefore b hb)
    · exact SortedSet.ne_of_compare hlt rfl
    · have hgt := List.rel_of_pairwise_cons (List.pairwise_append.mp hsorted).2.1 hb
      cases hgt.symm.trans (Std.OrientedCmp.gt_iff_lt.mpr hlt)
  · rintro ⟨⟨hmem, ha⟩, hleast⟩
    obtain ⟨before, after, hlist⟩ := List.append_of_mem hmem
    have hsorted := hlist ▸ s.sorted
    refine ⟨ha, before, after, hlist, fun b hb => ?_⟩
    have hlt := (List.pairwise_append.mp hsorted).2.2 b hb a List.mem_cons_self
    have hb : b ∈ s := SortedSet.mem_toList.mp (hlist ▸ List.mem_append_left _ hb)
    simpa using mt (hleast b hb) (not_not_intro hlt)

/-- What a production may consist of: its left-hand side is a nonterminal, and its body holds
declared symbols only. -/
structure Production.Declared (nonterminals terminals : List Char) (p : Production) : Prop where
  /-- what is replaced is a nonterminal -/
  lhs_mem : p.lhs ∈ nonterminals
  /-- what replaces it holds declared symbols -/
  body_mem : ∀ c ∈ p.body, c ∈ terminals ∨ c ∈ nonterminals

namespace Draft

/-- The draft that is written down with these lists. -/
def ofLists (nonterminals terminals : List Char) (start : Char) (productions : List Production) :
    Draft where
  nonterminals := .ofList nonterminals
  terminals := .ofList terminals
  start := start
  productions := productions

/-- What is wrong with production number `index`. A wrong left-hand side comes first, and then
the first symbol of the body that is not declared. -/
inductive DefectOf (nonterminals terminals : List Char) (index : Nat) : Production → Defect → Prop
  | lhs {a : Char} (body : Word) : a ∉ nonterminals →
    DefectOf nonterminals terminals index ⟨a, body⟩ (.lhsNotNonterminal index a)
  | body {a c : Char} (before after : Word) : a ∈ nonterminals →
    (∀ b ∈ before, b ∈ terminals ∨ b ∈ nonterminals) → c ∉ terminals → c ∉ nonterminals →
    DefectOf nonterminals terminals index ⟨a, before ++ c :: after⟩ (.undeclaredSymbol index c)

/-- What is wrong first with a draft that is written down with these lists. -/
inductive FirstDefect (nonterminals terminals : List Char) (start : Char)
    (productions : List Production) : Defect → Prop
  | ambiguous {c : Char} : c ∈ nonterminals → c ∈ terminals →
    (∀ d ∈ nonterminals, d ∈ terminals → c ≤ d) →
    FirstDefect nonterminals terminals start productions (.ambiguousSymbol c)
  | start : (∀ c ∈ terminals, c ∉ nonterminals) → start ∉ nonterminals →
    FirstDefect nonterminals terminals start productions (.startNotNonterminal start)
  | production {p : Production} {defect : Defect} (before after : List Production) :
    (∀ c ∈ terminals, c ∉ nonterminals) → start ∈ nonterminals →
    productions = before ++ p :: after → (∀ q ∈ before, q.Declared nonterminals terminals) →
    DefectOf nonterminals terminals before.length p defect →
    FirstDefect nonterminals terminals start productions defect

variable {nonterminals terminals : List Char} {start c : Char} {productions : List Production}
  {index : Nat} {p : Production} {w : Word} {defect : Defect} {d : Draft}

/-! ## The parts of the search -/

theorem ambiguous?_eq_some_iff : (ofLists nonterminals terminals start productions).ambiguous? =
    some c ↔ c ∈ nonterminals ∧ c ∈ terminals ∧ ∀ d ∈ nonterminals, d ∈ terminals → c ≤ d := by
  have hle {b : Char} : compare b c ≠ .lt ↔ c ≤ b :=
    (not_congr compareOfLessAndEq_eq_lt).trans Char.not_lt
  simp only [ambiguous?, ofLists, SortedSet.find?_eq_some_iff, SortedSet.mem_ofList,
    decide_eq_true_eq, hle]
  exact ⟨fun ⟨h, hleast⟩ => ⟨h.2, h.1, fun b hb hb' => hleast b hb' hb⟩,
    fun ⟨hn, ht, hleast⟩ => ⟨⟨ht, hn⟩, fun b hb hb' => hleast b hb' hb⟩⟩

theorem ambiguous?_ofLists_eq_none_iff :
    (ofLists nonterminals terminals start productions).ambiguous? = none ↔
      ∀ c ∈ terminals, c ∉ nonterminals := by
  simp only [ambiguous?_eq_none_iff, ofLists, SortedSet.mem_ofList]

theorem undeclared?_eq_some_iff :
    (ofLists nonterminals terminals start productions).undeclared? w = some c ↔
      (c ∉ terminals ∧ c ∉ nonterminals) ∧ ∃ before after, w = before ++ c :: after ∧
        ∀ b ∈ before, b ∈ terminals ∨ b ∈ nonterminals := by
  simp only [undeclared?, ofLists, List.find?_eq_some_iff_append, SortedSet.mem_ofList,
    decide_eq_true_eq, Bool.not_eq_true', decide_eq_false_iff_not, Classical.not_and_iff_not_or_not,
    Classical.not_not]

theorem declared_iff : p.Declared nonterminals terminals ↔
    (ofLists nonterminals terminals start productions).productionDefect? p index = none := by
  simp only [productionDefect?_eq_none_iff, ofLists, SortedSet.mem_ofList]
  exact ⟨fun h => ⟨h.lhs_mem, h.body_mem⟩, fun h => ⟨h.1, h.2⟩⟩

theorem productionDefect?_eq_some_iff :
    (ofLists nonterminals terminals start productions).productionDefect? p index = some defect ↔
      DefectOf nonterminals terminals index p defect := by
  obtain ⟨a, body⟩ := p
  have hmem : a ∈ (ofLists nonterminals terminals start productions).nonterminals ↔
      a ∈ nonterminals := SortedSet.mem_ofList
  unfold productionDefect?
  split
  · rename_i ha
    rw [Option.map_eq_some_iff]
    refine ⟨?_, fun h => ?_⟩
    · rintro ⟨c, hc, rfl⟩
      obtain ⟨⟨hct, hcn⟩, before, after, rfl, hbefore⟩ := undeclared?_eq_some_iff.mp hc
      exact .body before after (hmem.mp ha) hbefore hct hcn
    · cases h with
      | lhs _ hnot => exact absurd (hmem.mp ha) hnot
      | body before after _ hbefore hct hcn =>
        exact ⟨_, undeclared?_eq_some_iff.mpr ⟨⟨hct, hcn⟩, before, after, rfl, hbefore⟩, rfl⟩
  · rename_i hnot
    refine ⟨fun h => ?_, fun h => ?_⟩
    · cases h
      exact .lhs body (mt hmem.mpr hnot)
    · cases h with
      | lhs => rfl
      | body _ _ ha => exact absurd (hmem.mpr ha) hnot

/-- Of the productions, numbered from `index` on, the first defect is that of the first that is
not as declared. -/
theorem findSome?_productionDefect?_iff {ps : List Production} :
    ((ps.zipIdx index).findSome? fun x =>
      (ofLists nonterminals terminals start productions).productionDefect? x.1 x.2) = some defect ↔
    ∃ before p after, ps = before ++ p :: after ∧
      (∀ q ∈ before, q.Declared nonterminals terminals) ∧
      DefectOf nonterminals terminals (index + before.length) p defect := by
  induction ps generalizing index with
  | nil => simp
  | cons q ps ih =>
    rw [List.zipIdx_cons, List.findSome?_cons]
    cases hq : (ofLists nonterminals terminals start productions).productionDefect? q index with
    | some x =>
      refine ⟨fun h => ?_, ?_⟩
      · cases h
        exact ⟨[], q, ps, rfl, nofun, productionDefect?_eq_some_iff.mp hq⟩
      · rintro ⟨before, p, after, hsplit, hbefore, hp⟩
        cases before with
        | nil =>
          cases hsplit
          exact hq.symm.trans (productionDefect?_eq_some_iff.mpr hp)
        | cons r before =>
          cases hsplit
          rw [declared_iff.mp (hbefore q List.mem_cons_self)] at hq
          cases hq
    | none =>
      refine ih.trans ⟨?_, ?_⟩
      · rintro ⟨before, p, after, rfl, hbefore, hp⟩
        refine ⟨q :: before, p, after, rfl, List.forall_mem_cons.mpr ⟨declared_iff.mpr hq, hbefore⟩,
          ?_⟩
        rwa [List.length_cons, ← Nat.add_assoc, Nat.add_right_comm]
      · rintro ⟨before, p, after, hsplit, hbefore, hp⟩
        cases before with
        | nil =>
          cases hsplit
          cases hq.symm.trans (productionDefect?_eq_some_iff.mpr hp)
        | cons r before =>
          cases hsplit
          refine ⟨before, p, after, rfl, (List.forall_mem_cons.mp hbefore).2, ?_⟩
          rwa [Nat.add_right_comm, Nat.add_assoc]

/-! ## Validation -/

/-- The search finds what the rules say. -/
theorem defect?_eq_some_iff :
    (ofLists nonterminals terminals start productions).defect? = some defect ↔
      FirstDefect nonterminals terminals start productions defect := by
  have hstart : (ofLists nonterminals terminals start productions).start ∈
      (ofLists nonterminals terminals start productions).nonterminals ↔ start ∈ nonterminals :=
    SortedSet.mem_ofList
  unfold defect?
  split
  · rename_i c hc
    obtain ⟨hn, ht, hleast⟩ := ambiguous?_eq_some_iff.mp hc
    refine ⟨fun h => ?_, fun h => ?_⟩
    · cases h
      exact .ambiguous hn ht hleast
    · cases h with
      | ambiguous hn' ht' hleast' =>
        exact congrArg (some ∘ Defect.ambiguousSymbol)
          (Char.le_antisymm (hleast _ hn' ht') (hleast' _ hn ht))
      | start hnone => exact absurd hn (hnone c ht)
      | production _ _ hnone => exact absurd hn (hnone c ht)
  · rename_i hc
    have hnone := ambiguous?_ofLists_eq_none_iff.mp hc
    split
    · rename_i hs
      refine findSome?_productionDefect?_iff.trans ⟨?_, fun h => ?_⟩
      · rintro ⟨before, p, after, rfl, hbefore, hp⟩
        exact .production before after hnone (hstart.mp hs) rfl hbefore
          (Nat.zero_add before.length ▸ hp)
      · cases h with
        | ambiguous hn ht => exact absurd hn (hnone _ ht)
        | start _ hnot => exact absurd (hstart.mp hs) hnot
        | production before after _ _ hsplit hbefore hp =>
          exact ⟨before, _, after, hsplit, hbefore, (Nat.zero_add before.length).symm ▸ hp⟩
    · rename_i hs
      refine ⟨fun h => ?_, fun h => ?_⟩
      · cases h
        exact .start hnone (mt hstart.mpr hs)
      · cases h with
        | ambiguous hn ht => exact absurd hn (hnone _ ht)
        | start => rfl
        | production _ _ _ hmem => exact absurd (hstart.mpr hmem) hs

theorem validate_eq_error_iff : d.validate = .error defect ↔ d.defect? = some defect := by
  unfold validate
  split
  · rename_i x hx
    exact ⟨fun h => by cases h; exact hx, fun h => by cases hx.symm.trans h; rfl⟩
  · rename_i hnone
    exact iff_of_false nofun fun hsome => nomatch hnone.symm.trans hsome

/-- A draft is accepted as it is. -/
theorem validate_eq_ok_iff {g : Grammar} : d.validate = .ok g ↔ g.toDraft = d := by
  refine ⟨fun h => ?_, ?_⟩
  · unfold validate at h
    split at h
    · cases h
    · cases h
      rfl
  · rintro rfl
    exact g.validate_toDraft

theorem wellFormed_ofLists_iff : (ofLists nonterminals terminals start productions).WellFormed ↔
    (∀ c ∈ terminals, c ∉ nonterminals) ∧ start ∈ nonterminals ∧
      ∀ p ∈ productions, p.Declared nonterminals terminals := by
  refine ⟨fun h => ?_, fun h => ?_⟩
  · obtain ⟨hboth, hstart, hlhs, hbody⟩ := h
    simp only [ofLists, SortedSet.mem_ofList] at hboth hstart hlhs hbody
    exact ⟨hboth, hstart, fun p hp => ⟨hlhs p hp, hbody p hp⟩⟩
  · obtain ⟨hboth, hstart, hdeclared⟩ := h
    constructor <;> simp only [ofLists, SortedSet.mem_ofList]
    · exact hboth
    · exact hstart
    · exact fun p hp => (hdeclared p hp).lhs_mem
    · exact fun p hp => (hdeclared p hp).body_mem

/-- Lists of the same symbols describe the same draft. -/
theorem ofLists_congr {nonterminals' terminals' : List Char}
    (hn : ∀ c, c ∈ nonterminals' ↔ c ∈ nonterminals) (ht : ∀ c, c ∈ terminals' ↔ c ∈ terminals) :
    ofLists nonterminals' terminals' start productions =
      ofLists nonterminals terminals start productions := by
  have hsets {l l' : List Char} (h : ∀ c, c ∈ l' ↔ c ∈ l) :
      SortedSet.ofList l' = SortedSet.ofList l := SortedSet.ext fun c => by
    rw [SortedSet.mem_ofList, SortedSet.mem_ofList, h]
  rw [ofLists, ofLists, hsets hn, hsets ht]

/-- **Validation accepts what is well formed and names the first defect of the rest.** The
grammar has the symbols that are listed, and its productions stand in the order in which they
were given. In which order the symbols were listed and how often makes no difference. -/
theorem first_defect_is_reported (nonterminals terminals : List Char) (start : Char)
    (productions : List Production) :
    ((∃ g, (ofLists nonterminals terminals start productions).validate = .ok g) ↔
      (∀ c ∈ terminals, c ∉ nonterminals) ∧ start ∈ nonterminals ∧
        ∀ p ∈ productions, p.Declared nonterminals terminals) ∧
    (∀ defect, (ofLists nonterminals terminals start productions).validate = .error defect ↔
      FirstDefect nonterminals terminals start productions defect) ∧
    (∀ g, (ofLists nonterminals terminals start productions).validate = .ok g →
      (∀ c, c ∈ g.nonterminals ↔ c ∈ nonterminals) ∧ (∀ c, c ∈ g.terminals ↔ c ∈ terminals) ∧
        g.start = start ∧ g.productions = productions) ∧
    ∀ nonterminals' terminals', (∀ c, c ∈ nonterminals' ↔ c ∈ nonterminals) →
      (∀ c, c ∈ terminals' ↔ c ∈ terminals) →
        (ofLists nonterminals' terminals' start productions).validate =
          (ofLists nonterminals terminals start productions).validate := by
  refine ⟨?_, ?_, ?_, ?_⟩
  · rw [← wellFormed_ofLists_iff]
    refine ⟨?_, fun h => ⟨⟨_, h⟩, validate_eq_ok_iff.mpr rfl⟩⟩
    rintro ⟨g, hg⟩
    exact validate_eq_ok_iff.mp hg ▸ g.wellFormed
  · intro defect
    rw [validate_eq_error_iff, defect?_eq_some_iff]
  · intro g hg
    rw [validate_eq_ok_iff.mp hg]
    exact ⟨fun c => SortedSet.mem_ofList, fun c => SortedSet.mem_ofList, rfl, rfl⟩
  · intro nonterminals' terminals' hn ht
    rw [ofLists_congr hn ht]

/-- Of two symbols declared twice the lesser is named, although much else is wrong too; of two
wrong productions the first, with the first symbol that is not declared; and lists in another
order give the same grammar. -/
theorem first_defect_is_reported_samples :
    (ofLists ['S', 'b', 'a', 'A'] ['b', 'c', 'a'] 'c' [⟨'X', []⟩]).validate =
      .error (.ambiguousSymbol 'a') ∧
    (ofLists ['S', 'A', 'S'] ['b', 'a'] 'S'
        [⟨'S', ['a', 'A']⟩, ⟨'A', ['b', 'x', 'y']⟩, ⟨'b', []⟩]).validate =
      .error (.undeclaredSymbol 1 'x') ∧
    ∃ g, (ofLists ['S', 'A', 'S'] ['b', 'a'] 'S' [⟨'S', ['a', 'A']⟩, ⟨'A', []⟩]).validate = .ok g ∧
      g.productions = [⟨'S', ['a', 'A']⟩, ⟨'A', []⟩] ∧
      (ofLists ['A', 'S'] ['a', 'b', 'a'] 'S' [⟨'S', ['a', 'A']⟩, ⟨'A', []⟩]).validate = .ok g := by
  refine ⟨?_, ?_, ?_⟩
  · obtain ⟨_, herror, _, _⟩ := first_defect_is_reported ['S', 'b', 'a', 'A'] ['b', 'c', 'a'] 'c'
      [⟨'X', []⟩]
    exact (herror _).mpr (.ambiguous (by simp) (by simp) (by simp))
  · obtain ⟨_, herror, _, _⟩ := first_defect_is_reported ['S', 'A', 'S'] ['b', 'a'] 'S'
      [⟨'S', ['a', 'A']⟩, ⟨'A', ['b', 'x', 'y']⟩, ⟨'b', []⟩]
    refine (herror _).mpr (.production [⟨'S', ['a', 'A']⟩] _ (by simp) (by simp) rfl ?_
      (.body ['b'] ['y'] (by simp) (by simp) (by simp) (by simp)))
    simp only [List.forall_mem_singleton]
    exact ⟨by simp, by simp⟩
  · obtain ⟨hok, _, hread, hsets⟩ := first_defect_is_reported ['S', 'A', 'S'] ['b', 'a'] 'S'
      [⟨'S', ['a', 'A']⟩, ⟨'A', []⟩]
    obtain ⟨g, hg⟩ := hok.mpr ⟨by simp, by simp, by
      simp only [List.forall_mem_cons, List.not_mem_nil]
      exact ⟨⟨by simp, by simp⟩, ⟨by simp, by simp⟩, nofun⟩⟩
    refine ⟨g, hg, (hread g hg).2.2.2, ?_⟩
    rw [hsets ['A', 'S'] ['a', 'b', 'a'] (by simp) (by simp), hg]

end Draft

end GrammarAutomata
