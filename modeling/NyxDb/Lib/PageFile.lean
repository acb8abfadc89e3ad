import Mathlib.Data.Option.Defs
import NyxDb.Lib.Related

/-!
# Files of pages

The pages of a file, in order.  `none` is a page that holds no data: a hole left by writing or
extending past the end of the file, or a page that was allocated only.
-/

namespace NyxDb

open List

abbrev PageFile (α : Type) : Type := List (Option α)

namespace PageFile

variable {α : Type}

/-- What is on a page. -/
def look (pages : PageFile α) (id : Nat) : Option α :=
  (pages[id]?).join

/-- Write one page, past the end of the file if need be. -/
def write (pages : PageFile α) (id : Nat) (p : α) : PageFile α :=
  if id < pages.length then pages.set id (some p)
  else pages ++ replicate (id - pages.length) none ++ [some p]

/-- Cut the file to `n` pages, or extend it. -/
def resize (pages : PageFile α) (n : Nat) : PageFile α :=
  pages.take n ++ replicate (n - pages.length) none

variable {id : Nat} {pages : PageFile α}

theorem length_write (hid : id ≤ pages.length) (p : α) :
    (write pages id p).length = max pages.length (id + 1) := by
  unfold write
  by_cases hlt : id < pages.length
  · simp only [hlt, if_true, length_set]
    omega
  · simp only [hlt, if_false, length_append, length_replicate, length_singleton]
    omega

theorem write_append {ps : PageFile α} (hid : ps.length = id) (tail : Option (Option α)) (p : α) :
    write (ps ++ tail.toList) id p = ps ++ [some p] := by
  subst hid
  unfold write
  cases tail with
  | none => simp
  | some t =>
    rw [if_pos (by simp), set_append_right _ _ (Nat.le_refl _), Nat.sub_self]
    rfl

theorem resize_of_le {n : Nat} (h : n ≤ pages.length) : resize pages n = pages.take n := by
  rw [resize, Nat.sub_eq_zero_of_le h, replicate_zero, append_nil]

theorem look_write_ne {i : Nat} (p : α) (h : i ≠ id) :
    look (write pages id p) i = look pages i := by
  unfold look write
  by_cases hlt : id < pages.length
  · rw [if_pos hlt, getElem?_set_ne (Ne.symm h)]
  · rw [if_neg hlt, append_assoc]
    by_cases hi : i < pages.length
    · rw [getElem?_append_left hi]
    · rw [getElem?_append_right (by omega), getElem?_eq_none (l := pages) (by omega)]
      by_cases hi' : i - pages.length < id - pages.length
      · rw [getElem?_append_left (by simpa using hi'), getElem?_replicate, if_pos hi']
        rfl
      · rw [getElem?_eq_none]
        simp only [length_append, length_replicate, length_singleton]
        omega

theorem look_write (p : α) (i : Nat) :
    look (write pages id p) i = if i = id then some p else look pages i := by
  by_cases hi : i = id
  · subst hi
    rw [if_pos rfl]
    unfold look write
    by_cases hlt : i < pages.length
    · rw [if_pos hlt, getElem?_set_self hlt]
      rfl
    · have hlen : (pages ++ replicate (i - pages.length) none).length = i := by
        rw [length_append, length_replicate]
        omega
      rw [if_neg hlt, getElem?_append_right (Nat.le_of_eq hlen), hlen, Nat.sub_self]
      rfl
  · rw [if_neg hi, look_write_ne p hi]

theorem look_resize {n i : Nat} (h : i < n) : look (resize pages n) i = look pages i := by
  unfold look resize
  by_cases hi : i < pages.length
  · rw [getElem?_append_left (by rw [length_take]; omega), getElem?_take_of_lt h]
  · rw [getElem?_append_right (by rw [length_take]; omega), getElem?_replicate,
      getElem?_eq_none (Nat.le_of_not_lt hi)]
    split
    · rfl
    · rfl

/-! ## Files whose pages are related -/

section Related

variable {β : Type} {R : α → β → Prop} {xs : PageFile α} {ys : PageFile β}
  (h : Forall₂ (Option.Rel R) xs ys)
include h

theorem related_look (i : Nat) : Option.Rel R (xs.look i) (ys.look i) := by
  unfold look
  cases hx : xs[i]? with
  | none =>
    have hy : ys[i]? = none := by
      rw [getElem?_eq_none_iff] at hx ⊢
      rwa [← h.length_eq]
    rw [hy]
    exact .none
  | some x =>
    obtain ⟨y, hy, hxy⟩ := forall₂_left h hx
    rw [hy]
    exact hxy

theorem related_look_some {i : Nat} {q : β}
    (hq : ys.look i = some q) : ∃ p, xs.look i = some p ∧ R p q := by
  have hrel := related_look h i
  rw [hq] at hrel
  cases hp : xs.look i with
  | none =>
    rw [hp] at hrel
    cases hrel
  | some p =>
    rw [hp] at hrel
    cases hrel with
    | some hpq => exact ⟨p, rfl, hpq⟩

theorem related_write (id : Nat) {p : α} {q : β}
    (hpq : R p q) : Forall₂ (Option.Rel R) (xs.write id p) (ys.write id q) := by
  unfold write
  rw [← h.length_eq]
  split
  · exact forall₂_set h id (.some hpq)
  · refine rel_append (rel_append h ?_) (.cons (.some hpq) .nil)
    exact forall₂_replicate .none _

theorem related_resize (n : Nat) : Forall₂ (Option.Rel R) (xs.resize n) (ys.resize n) := by
  unfold resize
  rw [← h.length_eq]
  refine rel_append (forall₂_take n h) ?_
  exact forall₂_replicate .none _

end Related

end PageFile
end NyxDb
