/-!
# Maps that stop at errors

A list is gone through in order, and the first element for which there is no result
decides what is wrong with the whole (`mapM_eq_error_iff`). Where there is a result, it
is made of the results for the elements, one by one (`map_eq_of_mapM`).
-/

namespace GrammarAutomata

/-! ## One result -/

section

variable {α β ε ε' : Type}

theorem exists_of_map_eq_ok {f : α → β} {x : Except ε α} {b : β} (h : x.map f = .ok b) :
    ∃ a, x = .ok a ∧ b = f a := by
  cases x with
  | error e => cases h
  | ok a =>
    cases h
    exact ⟨a, rfl, rfl⟩

theorem exists_ok_of_isOk {x : Except ε α} (h : x.isOk = true) : ∃ a, x = .ok a := by
  cases x with
  | error e => cases h
  | ok a => exact ⟨a, rfl⟩

theorem map_eq_error_iff {f : α → β} {x : Except ε α} {e : ε} :
    x.map f = .error e ↔ x = .error e := by
  cases x with
  | error e' => exact ⟨fun h => by cases h; rfl, fun h => by cases h; rfl⟩
  | ok a => exact iff_of_false nofun nofun

theorem mapError_eq_ok_iff {f : ε → ε'} {x : Except ε α} {a : α} :
    x.mapError f = .ok a ↔ x = .ok a := by
  cases x with
  | error e => exact iff_of_false nofun nofun
  | ok b => exact ⟨fun h => by cases h; rfl, fun h => by cases h; rfl⟩

theorem mapError_eq_error_iff {f : ε → ε'} {x : Except ε α} {e : ε'} :
    x.mapError f = .error e ↔ ∃ e', x = .error e' ∧ f e' = e := by
  cases x with
  | error e' =>
    refine ⟨fun h => ⟨e', rfl, by cases h; rfl⟩, ?_⟩
    rintro ⟨_, h, rfl⟩
    cases h
    rfl
  | ok a => exact iff_of_false nofun fun ⟨_, h, _⟩ => nomatch h

end

/-! ## All results -/

section

variable {α β ε : Type} {f : α → Except ε β} {l : List α}

theorem mapM_cons_of_ok {a : α} {b : β} (h : f a = .ok b) :
    (a :: l).mapM f = (l.mapM f).map (b :: ·) := by
  rw [List.mapM_cons, h]
  cases l.mapM f <;> rfl

theorem mapM_cons_of_error {a : α} {e : ε} (h : f a = .error e) :
    (a :: l).mapM f = .error e := by
  rw [List.mapM_cons, h]
  rfl

/-- The head and the tail of what has a result have results. -/
theorem exists_of_mapM_cons {a : α} {r : List β} (h : (a :: l).mapM f = .ok r) :
    ∃ b bs, f a = .ok b ∧ l.mapM f = .ok bs ∧ r = b :: bs := by
  cases ha : f a with
  | error e =>
    rw [mapM_cons_of_error ha] at h
    cases h
  | ok b =>
    rw [mapM_cons_of_ok ha] at h
    obtain ⟨bs, hbs, rfl⟩ := exists_of_map_eq_ok h
    exact ⟨b, bs, rfl, hbs, rfl⟩

/-- A map that stops at errors has stopped at none if it has a result. -/
theorem map_eq_of_mapM {r : List β} (h : l.mapM f = .ok r) : l.map f = r.map .ok := by
  induction l generalizing r with
  | nil => cases h; rfl
  | cons a l ih =>
    obtain ⟨b, bs, hb, hbs, rfl⟩ := exists_of_mapM_cons h
    rw [List.map_cons, List.map_cons, hb, ih hbs]

/-- A result stays if the map is replaced by one that has the same results and
perhaps more. -/
theorem mapM_eq_ok_of_imp {f' : α → Except ε β} {r : List β}
    (himp : ∀ a b, f a = .ok b → f' a = .ok b) (h : l.mapM f = .ok r) : l.mapM f' = .ok r := by
  induction l generalizing r with
  | nil => exact h
  | cons a l ih =>
    obtain ⟨b, bs, hb, hbs, rfl⟩ := exists_of_mapM_cons h
    rw [mapM_cons_of_ok (himp a b hb), ih hbs]
    rfl

/-- How errors are shown has no influence on a result. -/
theorem mapM_mapError_eq_ok {ε' : Type} {show₁ show₂ : α → ε → ε'} {r : List β}
    (h : (l.mapM fun x => (f x).mapError (show₁ x)) = .ok r) :
    (l.mapM fun x => (f x).mapError (show₂ x)) = .ok r :=
  mapM_eq_ok_of_imp (fun _ _ hx => mapError_eq_ok_iff.mpr (mapError_eq_ok_iff.mp hx)) h

/-- Nor on where the error is. -/
theorem mapM_mapError_eq_error {ε' : Type} {show₁ : α → ε → ε'} (show₂ : α → ε → ε') {e : ε'}
    (h : (l.mapM fun x => (f x).mapError (show₁ x)) = .error e) :
    ∃ x ∈ l, ∃ e', e = show₁ x e' ∧
      (l.mapM fun x => (f x).mapError (show₂ x)) = .error (show₂ x e') := by
  induction l with
  | nil => cases h
  | cons a l ih =>
    cases ha : f a with
    | error e' =>
      rw [mapM_cons_of_error (e := show₁ a e') (by rw [ha]; rfl)] at h
      cases h
      exact ⟨a, List.mem_cons_self, e', rfl, mapM_cons_of_error (by rw [ha]; rfl)⟩
    | ok b =>
      rw [mapM_cons_of_ok (b := b) (by rw [ha]; rfl), map_eq_error_iff] at h
      obtain ⟨x, hx, e', rfl, herror⟩ := ih h
      refine ⟨x, List.mem_cons_of_mem _ hx, e', rfl, ?_⟩
      rw [mapM_cons_of_ok (b := b) (by rw [ha]; rfl), herror]
      rfl

/-! ## The first error -/

/-- At place `i` stands `a`, and before it there are only elements that have results. -/
structure FirstAt (f : α → Except ε β) (l : List α) (i : Nat) (a : α) : Prop where
  /-- what stands at the place -/
  get : l[i]? = some a
  /-- before it there is always a result -/
  before : ∀ (j : Nat) (b : α), j < i → l[j]? = some b → ∃ c, f b = .ok c

theorem firstAt_zero_iff {x a : α} : FirstAt f (x :: l) 0 a ↔ x = a :=
  ⟨fun h => Option.some.inj h.get, fun h => ⟨congrArg some h, fun j _ hj =>
    absurd hj (Nat.not_lt_zero j)⟩⟩

theorem firstAt_succ_iff {x a : α} {i : Nat} :
    FirstAt f (x :: l) (i + 1) a ↔ (∃ c, f x = .ok c) ∧ FirstAt f l i a := by
  refine ⟨fun h => ⟨h.before 0 x (Nat.succ_pos i) rfl, h.get, fun j b hj hb => ?_⟩, ?_⟩
  · exact h.before (j + 1) b (Nat.succ_lt_succ hj) hb
  · rintro ⟨hx, hget, hbefore⟩
    refine ⟨hget, fun j b hj hb => ?_⟩
    cases j with
    | zero => exact Option.some.inj hb ▸ hx
    | succ j => exact hbefore j b (Nat.lt_of_succ_lt_succ hj) hb

/-- A map that stops at errors stops at the first. -/
theorem mapM_eq_error_iff {e : ε} :
    l.mapM f = .error e ↔ ∃ i a, FirstAt f l i a ∧ f a = .error e := by
  induction l with
  | nil => exact iff_of_false nofun fun ⟨i, a, h, _⟩ => nomatch h.get
  | cons x l ih =>
    cases hx : f x with
    | error e' =>
      rw [mapM_cons_of_error hx]
      refine ⟨fun h => ⟨0, x, firstAt_zero_iff.mpr rfl, hx.trans (by cases h; rfl)⟩, ?_⟩
      rintro ⟨i, a, hfirst, he⟩
      cases i with
      | zero =>
        obtain rfl := firstAt_zero_iff.mp hfirst
        cases hx.symm.trans he
        rfl
      | succ i =>
        -- nothing behind the head is reached
        obtain ⟨⟨c, hc⟩, _⟩ := firstAt_succ_iff.mp hfirst
        cases hx.symm.trans hc
    | ok y =>
      rw [mapM_cons_of_ok hx, map_eq_error_iff, ih]
      refine ⟨fun ⟨i, a, hfirst, he⟩ =>
        ⟨i + 1, a, firstAt_succ_iff.mpr ⟨⟨y, hx⟩, hfirst⟩, he⟩, ?_⟩
      rintro ⟨i, a, hfirst, he⟩
      cases i with
      | zero =>
        obtain rfl := firstAt_zero_iff.mp hfirst
        cases hx.symm.trans he
      | succ i => exact ⟨i, a, (firstAt_succ_iff.mp hfirst).2, he⟩

end

end GrammarAutomata
