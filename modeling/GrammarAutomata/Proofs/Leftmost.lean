import GrammarAutomata.Grammar.Derivation

/-!
# Leftmost derivations

A form can be turned into a word from left to right, a symbol that stays being
passed over and a left-hand side that comes first being replaced. Nothing is lost
by keeping to this order: replacing a symbol further to the right can always be
put off until it comes first (`Yields.of_step`), so a form yields every word that
is derived from it (`yields_of_derives`).
-/

namespace GrammarAutomata

/-- From left to right the form `u` becomes the word `w`. The symbols that
`settled` holds of may be passed over. -/
inductive Yields (productions : List Production) (settled : Char → Prop) : Word → Word → Prop
  | nil : Yields productions settled [] []
  | keep {c : Char} {u w : Word} : settled c → Yields productions settled u w →
    Yields productions settled (c :: u) (c :: w)
  | replace {p : Production} {u w : Word} : p ∈ productions →
    Yields productions settled (p.body ++ u) w → Yields productions settled (p.lhs :: u) w

variable {ps : List Production} {settled : Char → Prop} {u v w : Word}

/-- A word of settled symbols is passed over as a whole. -/
theorem Yields.refl (hw : ∀ c ∈ w, settled c) : Yields ps settled w w := by
  induction w with
  | nil => exact .nil
  | cons c w ih =>
    exact .keep (hw c List.mem_cons_self) (ih fun d hd => hw d (List.mem_cons_of_mem _ hd))

/-- What a form yields after a step it yields before the step. -/
theorem Yields.of_step (hstep : DerivesStep ps u v) (h : Yields ps settled v w) :
    Yields ps settled u w := by
  obtain ⟨hp, before, after⟩ := hstep
  rename_i p
  -- the body lies behind `before`, which shrinks or is itself replaced, until nothing is left of it
  generalize hv : before ++ p.body ++ after = v at h
  induction h generalizing before with
  | nil =>
    obtain ⟨hnil, rfl⟩ := List.append_eq_nil_iff.mp hv
    obtain ⟨rfl, hbody⟩ := List.append_eq_nil_iff.mp hnil
    exact .replace hp (by rw [hbody]; exact .nil)
  | keep hc h ih =>
    cases before with
    | nil =>
      rw [List.nil_append] at hv
      exact .replace hp (hv ▸ .keep hc h)
    | cons b before =>
      rw [List.cons_append, List.cons_append, List.cons.injEq] at hv
      obtain ⟨rfl, hv⟩ := hv
      exact .keep hc (ih before hv)
  | @replace q _ _ hq h ih =>
    cases before with
    | nil =>
      rw [List.nil_append] at hv
      exact .replace hp (hv ▸ .replace hq h)
    | cons b before =>
      rw [List.cons_append, List.cons_append, List.cons.injEq] at hv
      obtain ⟨rfl, rfl⟩ := hv
      have hrest := ih (q.body ++ before) (by simp)
      rw [List.append_assoc] at hrest
      exact .replace hq hrest

theorem Yields.of_derives (h : Derives ps u v) : Yields ps settled v w → Yields ps settled u w := by
  induction h with
  | refl => exact id
  | tail _ hstep ih => exact fun h => ih (h.of_step hstep)

/-- Every derivation of a word of settled symbols can be put in order. -/
theorem yields_of_derives (h : Derives ps u w) (hw : ∀ c ∈ w, settled c) :
    Yields ps settled u w := .of_derives h (.refl hw)

/-- Without empty bodies a form is no longer than what it yields. -/
theorem Yields.length_le (hbody : ∀ p ∈ ps, p.body ≠ []) (h : Yields ps settled u w) :
    u.length ≤ w.length := by
  induction h with
  | nil => exact Nat.le_refl _
  | keep _ _ ih => exact Nat.succ_le_succ ih
  | replace hp _ ih =>
    have hpos := List.length_pos_iff.mpr (hbody _ hp)
    rw [List.length_append] at ih
    rw [List.length_cons]
    omega

end GrammarAutomata
