import Mathlib.Data.List.Sort

/-!
# Stable sorting by a comparison

A comparison is carried over along a function, and a linear order has one.  `SortedBy` says what a
stable sort of entries by their keys gives.
-/

namespace NyxDb

open List

section Order

variable {α β : Type} {f : α → β}

theorem transCmp_on (cmp : β → β → Ordering) [Std.TransCmp cmp] (f : α → β) :
    Std.TransCmp fun a b => cmp (f a) (f b) where
  eq_swap := Std.OrientedCmp.eq_swap
  isLE_trans := Std.TransCmp.isLE_trans

instance transCmp_cmp [LinearOrder α] [d : DecidableLT α] : Std.TransCmp (@cmp α _ d) := by
  obtain rfl : d = LinearOrder.toDecidableLT := Subsingleton.elim _ _
  refine { eq_swap := (cmp_swap _ _).symm, isLE_trans := fun {a b c} hab hbc => ?_ }
  rw [Ordering.isLE_iff_ne_gt, cmp_eq_gt_iff, not_lt] at hab hbc ⊢
  exact hab.trans hbc

/-- What a comparison puts first, seen through any function. -/
theorem isStrictWeakOrder_lt (order : β → β → Ordering) [Std.TransCmp order] (f : α → β) :
    IsStrictWeakOrder α fun a b => order (f a) (f b) = .lt where
  irrefl a := by
    have hself : order (f a) (f a) = .eq := Std.ReflCmp.compare_self
    simp [hself]
  trans _ _ _ := Std.TransCmp.lt_trans
  incomp_trans a b c hab hbc := by
    have heq : ∀ x y : β, (order x y ≠ .lt ∧ order y x ≠ .lt) ↔ order x y = .eq := by
      intro x y
      have hswap : order y x = (order x y).swap := Std.OrientedCmp.eq_swap
      rw [hswap]
      cases order x y <;> simp
    rw [heq] at hab hbc ⊢
    exact Std.TransCmp.eq_trans hab hbc

end Order

section Stable

variable {K R : Type} {order : K → K → Ordering} [Std.TransCmp order]

/-- A list that is sorted by its keys, with the entries of equal keys in the order of the input. -/
structure SortedBy (order : K → K → Ordering) (input sorted : List (K × R)) : Prop where
  perm : sorted.Perm input
  pairwise : sorted.Pairwise fun a b => order b.1 a.1 ≠ .lt
  stable : ∀ k, (sorted.filter fun x => order x.1 k = .eq) = input.filter fun x => order x.1 k = .eq

theorem sortedBy_mergeSort (input : List (K × R)) :
    SortedBy order input (input.mergeSort fun a b => (order a.1 b.1).isLE) := by
  have htrans : ∀ a b c : K × R, (order a.1 b.1).isLE = true → (order b.1 c.1).isLE = true →
      (order a.1 c.1).isLE = true := fun _ _ _ => Std.TransCmp.isLE_trans
  have hswap : ∀ a b : K, order b a = (order a b).swap := fun _ _ => Std.OrientedCmp.eq_swap
  have htotal : ∀ a b : K × R, ((order a.1 b.1).isLE || (order b.1 a.1).isLE) = true := by
    intro a b
    rw [hswap a.1 b.1]
    cases order a.1 b.1 <;> rfl
  have hperm := mergeSort_perm input fun a b => (order a.1 b.1).isLE
  refine ⟨hperm, (pairwise_mergeSort htrans htotal input).imp ?_, ?_⟩
  · intro a b
    rw [hswap a.1 b.1]
    cases order a.1 b.1 <;> simp
  · intro k
    -- The entries of the key are a sorted part of the input, so they are a part of the result.
    have hpart : (input.filter fun x => order x.1 k = .eq).Sublist
        (input.mergeSort fun a b => (order a.1 b.1).isLE) := by
      refine sublist_mergeSort htrans htotal ?_ filter_sublist
      refine pairwise_filter.2 (pairwise_of_forall fun a b ha hb => ?_)
      have hb' : order k b.1 = .eq := by
        rw [hswap b.1 k, of_decide_eq_true hb]
        rfl
      rw [Std.TransCmp.eq_trans (of_decide_eq_true ha) hb']
      rfl
    have hfilter := hpart.filter fun x => decide (order x.1 k = .eq)
    rw [filter_filter] at hfilter
    simp only [Bool.and_self] at hfilter
    exact (hfilter.eq_of_length (hperm.filter _).length_eq.symm).symm

end Stable

end NyxDb
