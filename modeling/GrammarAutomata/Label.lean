/-!
# Labels

What one step of an automaton reads: a symbol, or nothing at all. Reading nothing
comes before every symbol.
-/

namespace GrammarAutomata

/-- What a transition reads. -/
inductive Label where
  /-- nothing -/
  | epsilon
  /-- one symbol -/
  | symbol (c : Char)
  deriving DecidableEq, Repr

namespace Label

/-- The symbol itself, or `ε`. -/
def text : Label → String
  | .epsilon => "ε"
  | .symbol c => c.toString

/-- The symbol that is read, if one is. -/
def symbol? : Label → Option Char
  | .epsilon => none
  | .symbol c => some c

theorem eq_of_symbol?_eq {l m : Label} (h : l.symbol? = m.symbol?) : l = m := by
  cases l <;> cases m <;> simp_all [symbol?]

/-- Reading nothing comes first, symbols follow in their own order. -/
instance : Ord Label where
  compare := compareOn symbol?

instance : Std.TransOrd Label := inferInstanceAs (Std.TransCmp (compareOn symbol?))

instance : Std.LawfulEqOrd Label where
  compare_self {l} := show compare l.symbol? l.symbol? = .eq from Std.ReflCmp.compare_self
  eq_of_compare {l m} h := by
    replace h : compare l.symbol? m.symbol? = .eq := h
    exact eq_of_symbol?_eq (Std.LawfulEqCmp.eq_of_compare h)

/-- Reading nothing comes before every symbol, and symbols come as their code points do. -/
def Before : Label → Label → Prop
  | .epsilon, .symbol _ => True
  | .symbol c, .symbol d => c < d
  | _, .epsilon => False

theorem compare_eq_lt_iff {l m : Label} : compare l m = .lt ↔ l.Before m := by
  cases l with
  | epsilon =>
    cases m with
    | epsilon => exact iff_of_false nofun id
    | symbol d => exact iff_of_true rfl trivial
  | symbol c =>
    cases m with
    | epsilon => exact iff_of_false nofun id
    | symbol d => exact compareOfLessAndEq_eq_lt

theorem Before.ne {l m : Label} (h : l.Before m) : l ≠ m := by
  rintro rfl
  cases Std.ReflCmp.compare_self.symm.trans (compare_eq_lt_iff.mpr h)

end Label

end GrammarAutomata
