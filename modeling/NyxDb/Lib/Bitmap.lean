import NyxDb.Lib.Bytes
import Mathlib.Data.Nat.Bitwise
import Mathlib.Tactic.IntervalCases

/-!
# Bitmaps

A bitmap is a byte string; bit `i` is bit `i % 8` of byte `i / 8`.  Bits past the end are `0`.
-/

namespace NyxDb.Bitmap

open List

def test (bm : Bytes) (i : Nat) : Bool :=
  (bm.getD (i / 8) 0).toNat.testBit (i % 8)

def set (bm : Bytes) (i : Nat) : Bytes :=
  bm.modify (i / 8) fun b => b ||| UInt8.ofNat (2 ^ (i % 8))

def clear (bm : Bytes) (i : Nat) : Bytes :=
  bm.modify (i / 8) fun b => b &&& ~~~ UInt8.ofNat (2 ^ (i % 8))

/-- The bitmap with at least `n` bytes. -/
def resize (bm : Bytes) (n : Nat) : Bytes :=
  bm ++ replicate (n - bm.length) 0

/-- The bytes that hold `n` bits. -/
def bytesFor (n : Nat) : Nat :=
  (n + 7) / 8

/-- Set the bits of a list. -/
def setAll (bm : Bytes) (is : List Nat) : Bytes :=
  is.foldl set bm

@[simp] theorem test_nil (i : Nat) : test [] i = false := by
  simp [test]

@[simp] theorem length_set (bm : Bytes) (i : Nat) : (set bm i).length = bm.length := by
  simp [set]

@[simp] theorem length_resize (bm : Bytes) (n : Nat) : (resize bm n).length = max bm.length n := by
  simp only [resize, length_append, length_replicate]
  omega

@[simp] theorem test_resize (bm : Bytes) (n i : Nat) : test (resize bm n) i = test bm i := by
  unfold test resize
  rw [getD_eq_getElem?_getD, getD_eq_getElem?_getD, getElem?_append]
  by_cases h : i / 8 < bm.length
  · rw [if_pos h]
  · rw [if_neg h, getElem?_eq_none (l := bm) (by omega), getElem?_replicate]
    split <;> rfl

theorem toNat_ofNat_two_pow {k : Nat} (hk : k < 8) : (UInt8.ofNat (2 ^ k)).toNat = 2 ^ k := by
  have hlt : 2 ^ k < 2 ^ 8 := Nat.pow_lt_pow_right (by decide) hk
  exact Nat.mod_eq_of_lt hlt

theorem test_set {bm : Bytes} {i : Nat} (hi : i / 8 < bm.length) (j : Nat) :
    test (set bm i) j = (test bm j || decide (i = j)) := by
  unfold test set
  rw [getD_eq_getElem?_getD, getD_eq_getElem?_getD, getElem?_modify]
  by_cases hbyte : i / 8 = j / 8
  · have hj : j / 8 < bm.length := hbyte ▸ hi
    rw [getElem?_eq_getElem hj]
    simp only [hbyte, if_true, Option.map_eq_map, Option.map_some, Option.getD_some, UInt8.toNat_or,
      toNat_ofNat_two_pow (Nat.mod_lt i (by decide)), Nat.testBit_or, Nat.testBit_two_pow]
    congr 1
    refine decide_eq_decide.mpr ⟨fun h => ?_, fun h => by rw [h]⟩
    rw [← Nat.div_add_mod i 8, ← Nat.div_add_mod j 8, hbyte, h]
  · have hne : i ≠ j := fun h => hbyte (by rw [h])
    simp [hbyte, hne]

@[simp] theorem length_clear (bm : Bytes) (i : Nat) : (clear bm i).length = bm.length := by
  simp [clear]

theorem testBit_and_not {b : UInt8} {j k : Nat} (hj : j < 8) (hk : k < 8) :
    (b &&& ~~~ UInt8.ofNat (2 ^ k)).toNat.testBit j = (b.toNat.testBit j && !decide (k = j)) := by
  have hnot : (~~~ UInt8.ofNat (2 ^ k)).toNat.testBit j = !decide (k = j) := by
    interval_cases k <;> interval_cases j <;> decide
  rw [UInt8.toNat_and, Nat.testBit_and, hnot]

theorem test_clear (bm : Bytes) (i j : Nat) :
    test (clear bm i) j = (test bm j && !decide (i = j)) := by
  unfold test clear
  rw [getD_eq_getElem?_getD, getD_eq_getElem?_getD, getElem?_modify]
  have hj : j % 8 < 8 := Nat.mod_lt j (by decide)
  have hi : i % 8 < 8 := Nat.mod_lt i (by decide)
  by_cases hbyte : i / 8 = j / 8
  · have heq : decide (i % 8 = j % 8) = decide (i = j) := by
      refine decide_eq_decide.mpr ⟨fun h => ?_, fun h => by rw [h]⟩
      rw [← Nat.div_add_mod i 8, ← Nat.div_add_mod j 8, hbyte, h]
    cases hb : bm[j / 8]? with
    | none => simp
    | some b =>
      simp only [hbyte, if_true, Option.map_eq_map, Option.map_some, Option.getD_some]
      rw [testBit_and_not hj hi, heq]
  · have hne : i ≠ j := fun h => hbyte (by rw [h])
    simp [hbyte, hne]

theorem test_setAll {is : List Nat} {bm : Bytes} (hi : ∀ i ∈ is, i / 8 < bm.length) (j : Nat) :
    test (setAll bm is) j = (test bm j || decide (j ∈ is)) := by
  induction is generalizing bm with
  | nil => simp [setAll]
  | cons i is ih =>
    show test (setAll (set bm i) is) j = _
    have his : ∀ k ∈ is, k / 8 < (set bm i).length := by
      intro k hk
      rw [length_set]
      exact hi k (mem_cons_of_mem _ hk)
    rw [ih his, test_set (hi i mem_cons_self)]
    simp [eq_comm (a := i), Bool.or_assoc]

theorem div_lt_bytesFor {i n : Nat} (h : i < n) : i / 8 < bytesFor n := by
  unfold bytesFor
  omega

end NyxDb.Bitmap
