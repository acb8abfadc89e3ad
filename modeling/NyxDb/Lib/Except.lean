import Mathlib.Data.List.Forall2

/-!
# Lists of computations that may fail
-/

namespace NyxDb

open List

variable {ε α β : Type}

theorem except_ok_bind (a : α) (f : α → Except ε β) : (Except.ok a >>= f) = f a :=
  rfl

theorem except_error_bind (e : ε) (f : α → Except ε β) : (Except.error e >>= f) = .error e :=
  rfl

theorem except_pure (a : α) : (pure a : Except ε α) = .ok a :=
  rfl

variable {f : α → Except ε β} {xs : List α} {x : Except ε α}

/-- A sequence succeeded: its first part did, and the second with what that returned. -/
theorem except_bind_eq_ok {b : β} : (x >>= f) = .ok b ↔ ∃ a, x = .ok a ∧ f a = .ok b := by
  cases x <;> simp [except_ok_bind, except_error_bind]

/-- Whichever of two computations came first, the rest succeeded. -/
theorem except_ite_bind_eq_ok {c : Prop} [Decidable c] {y : Except ε α} {b : β}
    (h : (if c then x >>= f else y >>= f) = .ok b) : ∃ a, f a = .ok b := by
  split at h <;> exact (except_bind_eq_ok.mp h).imp fun _ h => h.2

theorem except_map_eq_ok {f : α → β} {b : β} : f <$> x = .ok b ↔ ∃ a, x = .ok a ∧ f a = b := by
  cases x <;> simp [Functor.map, Except.map]

theorem forall₂_of_mapM {ys : List β} (h : xs.mapM f = .ok ys) :
    List.Forall₂ (fun x y => f x = .ok y) xs ys := by
  induction xs generalizing ys with
  | nil =>
    cases h
    exact .nil
  | cons x xs ih =>
    rw [mapM_cons] at h
    obtain ⟨y, hx, h⟩ := except_bind_eq_ok.mp h
    obtain ⟨_, hxs, h⟩ := except_bind_eq_ok.mp h
    cases h
    exact .cons hx (ih hxs)

theorem mapM_of_forall₂ {ys : List β} (h : List.Forall₂ (fun x y => f x = .ok y) xs ys) :
    xs.mapM f = .ok ys := by
  induction h with
  | nil => rfl
  | cons hx _ ih =>
    rw [mapM_cons, hx, ih]
    rfl

theorem mapM_eq_ok {g : α → β} (h : ∀ x ∈ xs, f x = .ok (g x)) : xs.mapM f = .ok (xs.map g) :=
  mapM_of_forall₂ (forall₂_map_right_iff.2 (forall₂_same.2 h))

/-- The elements of a list, computed from their places. -/
theorem mapM_range {f : Nat → Except ε α} (h : ∀ i x, xs[i]? = some x → f i = .ok x) :
    (range xs.length).mapM f = .ok xs := by
  refine mapM_of_forall₂ (forall₂_iff_get.2 ⟨by simp, fun i hi hi' => ?_⟩)
  simpa using h i _ (getElem?_eq_getElem hi')

/-- Computations that all succeed, with what each returns. -/
theorem mapM_ok_at {P : Nat → α → β → Prop}
    (h : ∀ i x, xs[i]? = some x → ∃ y, f x = .ok y ∧ P i x y) :
    ∃ ys, xs.mapM f = .ok ys ∧ ys.length = xs.length ∧
      ∀ i x y, xs[i]? = some x → ys[i]? = some y → P i x y := by
  induction xs generalizing P with
  | nil => exact ⟨[], rfl, rfl, by simp⟩
  | cons x xs ih =>
    obtain ⟨y, hy, hp⟩ := h 0 x rfl
    obtain ⟨ys, hys, hlen, hps⟩ := ih (P := fun i => P (i + 1)) fun i x' hx' => h (i + 1) x' hx'
    refine ⟨y :: ys, ?_, congrArg (· + 1) hlen, fun i x' y' hx' hy' => ?_⟩
    · rw [mapM_cons, hy, hys]
      rfl
    · cases i with
      | zero =>
        cases hx'
        cases hy'
        exact hp
      | succ i => exact hps i x' y' hx' hy'

theorem mapM_ok_rel {P : α → β → Prop} (h : ∀ x ∈ xs, ∃ y, f x = .ok y ∧ P x y) :
    ∃ ys, xs.mapM f = .ok ys ∧ List.Forall₂ P xs ys := by
  obtain ⟨ys, hys, hlen, hp⟩ := mapM_ok_at (P := fun _ => P) fun _ x hx => h x (mem_of_getElem? hx)
  exact ⟨ys, hys, forall₂_iff_get.2 ⟨hlen.symm, fun i hi hi' =>
    hp i _ _ (getElem?_eq_getElem hi) (getElem?_eq_getElem hi')⟩⟩

theorem mapM_ok (h : ∀ x ∈ xs, ∃ y, f x = .ok y) : ∃ ys, xs.mapM f = .ok ys := by
  obtain ⟨ys, hys, -⟩ := mapM_ok_rel (P := fun _ _ => True) fun x hx =>
    (h x hx).imp fun _ hy => ⟨hy, trivial⟩
  exact ⟨ys, hys⟩

/-- Computations that can fail with one error only, of which one does fail. -/
theorem mapM_eq_error {e₀ : ε} (herr : ∀ x ∈ xs, ∀ e, f x = .error e → e = e₀) {x : α} (hx : x ∈ xs)
    (hfail : ∀ y, f x ≠ .ok y) : xs.mapM f = .error e₀ := by
  induction xs with
  | nil => cases hx
  | cons x₀ xs ih =>
    rw [mapM_cons]
    cases hx₀ : f x₀ with
    | error e =>
      rw [herr x₀ mem_cons_self e hx₀]
      rfl
    | ok y =>
      rcases mem_cons.mp hx with rfl | hx
      · exact absurd hx₀ (hfail y)
      · rw [ih (fun z hz => herr z (mem_cons_of_mem _ hz)) hx]
        rfl

end NyxDb
