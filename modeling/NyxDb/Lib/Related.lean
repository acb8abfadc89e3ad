import Mathlib.Data.List.Forall2

/-!
# Lists related element by element

What `List.Forall₂` says about the elements at an index, and which operations keep it.
-/

namespace NyxDb

variable {α β : Type} {R : α → β → Prop} {xs : List α} {ys : List β} {x : α} {y : β}

section

variable (h : List.Forall₂ R xs ys)
include h

theorem forall₂_left {i : Nat} (hx : xs[i]? = some x) : ∃ y, ys[i]? = some y ∧ R x y := by
  induction h generalizing i with
  | nil => cases hx
  | @cons a b as bs hab hrest ih =>
    cases i with
    | zero =>
      cases hx
      exact ⟨b, rfl, hab⟩
    | succ i => exact ih hx

theorem forall₂_right {i : Nat} (hy : ys[i]? = some y) : ∃ x, xs[i]? = some x ∧ R x y :=
  forall₂_left h.flip hy

theorem forall₂_mem_left (hx : x ∈ xs) : ∃ y ∈ ys, R x y := by
  obtain ⟨i, hi⟩ := List.mem_iff_getElem?.mp hx
  obtain ⟨y, hy, hxy⟩ := forall₂_left h hi
  exact ⟨y, List.mem_of_getElem? hy, hxy⟩

theorem forall₂_mem_right (hy : y ∈ ys) : ∃ x ∈ xs, R x y :=
  forall₂_mem_left h.flip hy

/-- Another relation, given what is known of the elements themselves. -/
theorem forall₂_imp_mem {S : α → β → Prop} (himp : ∀ x ∈ xs, ∀ y ∈ ys, R x y → S x y) :
    List.Forall₂ S xs ys := by
  refine List.forall₂_iff_zip.2 ⟨h.length_eq, fun hxy => ?_⟩
  obtain ⟨hx, hy⟩ := List.of_mem_zip hxy
  exact himp _ hx _ hy (List.forall₂_zip h hxy)

theorem forall₂_zipWith {γ : Type} {S : α → γ → Prop} {f : α → β → γ}
    (hf : ∀ x ∈ xs, ∀ y ∈ ys, R x y → S x (f x y)) : List.Forall₂ S xs (List.zipWith f xs ys) := by
  induction h with
  | nil => exact .nil
  | cons hxy _ ih =>
    obtain ⟨hx, hxs⟩ := List.forall_mem_cons.1 hf
    refine .cons (hx _ List.mem_cons_self hxy) (ih fun x hmem y hy => ?_)
    exact hxs x hmem y (List.mem_cons_of_mem _ hy)

theorem forall₂_map_eq {γ : Type} {f : α → γ} {g : β → γ}
    (heq : ∀ x y, R x y → g y = f x) : ys.map g = xs.map f := by
  induction h with
  | nil => rfl
  | cons hxy _ ih => rw [List.map_cons, List.map_cons, heq _ _ hxy, ih]

theorem forall₂_set (i : Nat) (hxy : R x y) : List.Forall₂ R (xs.set i x) (ys.set i y) := by
  induction h generalizing i with
  | nil => exact .nil
  | cons hab hrest ih =>
    cases i with
    | zero => exact .cons hxy hrest
    | succ i => exact .cons hab (ih i)

end

theorem lt_of_getElem? {i : Nat} (h : xs[i]? = some x) : i < xs.length :=
  (List.getElem?_eq_some_iff.mp h).1

theorem forall_mem_concat {P : α → Prop} {a : α} (h : ∀ x ∈ xs, P x) (ha : P a) :
    ∀ x ∈ xs ++ [a], P x :=
  List.forall_mem_append.2 ⟨h, List.forall_mem_singleton.2 ha⟩

theorem forall₂_replicate (hxy : R x y) (n : Nat) :
    List.Forall₂ R (List.replicate n x) (List.replicate n y) := by
  induction n with
  | zero => exact .nil
  | succ n ih => exact .cons hxy ih

variable [BEq α] [LawfulBEq α] {k : α}

theorem mem_of_lookup {b : β} {l : List (α × β)} (h : l.lookup k = some b) : (k, b) ∈ l := by
  obtain ⟨-, -, rfl, -⟩ := List.lookup_eq_some_iff.1 h
  simp

/-- Looking up a key among the pairs whose keys have a property. -/
theorem lookup_filter_key (p : α → Bool) (k : α) (l : List (α × β)) :
    (l.filter fun x => p x.1).lookup k = if p k then l.lookup k else none := by
  induction l with
  | nil => simp
  | cons x l ih =>
    obtain ⟨a, b⟩ := x
    by_cases hk : k = a
    · subst hk
      cases hp : p k <;> simp [hp, ih]
    · have hskip : (k == a) = false := beq_eq_false_iff_ne.mpr hk
      cases hp : p a <;> simp [hp, hskip, ih, List.lookup_cons]

end NyxDb
