import Mathlib.Data.List.Basic

/-!
# Ranges of bytes

A layout is a list of ranges.  It fits between two ends if every range lies there and no two of
them overlap.
-/

namespace NyxDb

open List

structure Span where
  start : Nat
  size : Nat
  deriving DecidableEq, Repr

namespace Span

def Inside (lo hi : Nat) (s : Span) : Prop :=
  lo ≤ s.start ∧ s.start + s.size ≤ hi

def Disjoint (s t : Span) : Prop :=
  s.start + s.size ≤ t.start ∨ t.start + t.size ≤ s.start

structure Fit (lo hi : Nat) (spans : List Span) : Prop where
  inside : ∀ s ∈ spans, s.Inside lo hi
  disjoint : spans.Pairwise Disjoint

/-- Ranges of one size, one after the other. -/
def row (base size n : Nat) : List Span :=
  (range n).map fun i => ⟨base + i * size, size⟩

theorem fit_row (base size n : Nat) : Fit base (base + n * size) (row base size n) := by
  have hstep : ∀ {i m}, i < m → i * size + size ≤ m * size := by
    intro i m him
    rw [← Nat.succ_mul]
    exact Nat.mul_le_mul_right size him
  constructor
  · intro s hs
    obtain ⟨i, hi, rfl⟩ := mem_map.mp hs
    have hend := hstep (mem_range.mp hi)
    simp only [Inside]
    omega
  · refine pairwise_map.mpr (pairwise_lt_range.imp fun {i j} hij => Or.inl ?_)
    have hnext := hstep hij
    simp only
    omega

variable {lo mid hi hi' : Nat} {xs ys : List Span}

theorem Fit.append (hx : Fit lo mid xs) (hy : Fit mid hi ys) (hlo : lo ≤ mid) (hhi : mid ≤ hi) :
    Fit lo hi (xs ++ ys) := by
  constructor
  · intro s hs
    rcases mem_append.mp hs with hs | hs
    · exact ⟨(hx.inside s hs).1, Nat.le_trans (hx.inside s hs).2 hhi⟩
    · exact ⟨Nat.le_trans hlo (hy.inside s hs).1, (hy.inside s hs).2⟩
  · refine pairwise_append.mpr ⟨hx.disjoint, hy.disjoint, fun s hs t ht => Or.inl ?_⟩
    exact Nat.le_trans (hx.inside s hs).2 (hy.inside t ht).1

theorem Fit.mono (h : Fit lo hi xs) (hle : hi ≤ hi') : Fit lo hi' xs :=
  ⟨fun s hs => ⟨(h.inside s hs).1, Nat.le_trans (h.inside s hs).2 hle⟩, h.disjoint⟩

/-- A first range and two rows, without gaps. -/
theorem fit_three (a b m k n : Nat) (h : a + m * b + n * k ≤ hi) :
    Fit 0 hi (row 0 a 1 ++ (row a b m ++ row (a + m * b) k n)) := by
  have hfirst := fit_row 0 a 1
  rw [Nat.zero_add, Nat.one_mul] at hfirst
  have hrest := (fit_row a b m).append ((fit_row (a + m * b) k n).mono h) (by omega) (by omega)
  exact hfirst.append hrest (by omega) (by omega)

end Span
end NyxDb
