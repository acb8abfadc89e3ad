import NyxDb.Lib.Bytes

/-!
# Memory areas

A memory area is a byte string of fixed length.  `writeAt` copies bytes to an offset, `readAt` takes
bytes from one.  What is written is read back, and what does not overlap it is untouched.
-/

namespace NyxDb

open List

/-- Copy bytes to an offset. -/
def writeAt (mem : Bytes) (off : Nat) (bs : Bytes) : Bytes :=
  mem.take off ++ (bs ++ mem.drop (off + bs.length))

/-- The `n` bytes from an offset on. -/
def readAt (mem : Bytes) (off n : Nat) : Bytes :=
  (mem.drop off).take n

variable {bs mem : Bytes} {off : Nat}

theorem length_writeAt (h : off + bs.length ≤ mem.length) :
    (writeAt mem off bs).length = mem.length := by
  simp only [writeAt, length_append, length_take, length_drop]
  omega

theorem getElem?_writeAt (h : off + bs.length ≤ mem.length) (i : Nat) : (writeAt mem off bs)[i]? =
      if off ≤ i ∧ i < off + bs.length then bs[i - off]? else mem[i]? := by
  have hlen : (mem.take off).length = off := by
    rw [length_take]
    omega
  unfold writeAt
  by_cases hlow : i < off
  · rw [if_neg (by omega), getElem?_append_left (by omega), getElem?_take_of_lt hlow]
  · rw [getElem?_append_right (by omega), hlen]
    by_cases hin : i < off + bs.length
    · rw [if_pos (by omega), getElem?_append_left (by omega)]
    · rw [if_neg (by omega), getElem?_append_right (by omega), getElem?_drop]
      congr 1
      omega

/-- What is read depends on the bytes that are read only. -/
theorem readAt_congr {mem' : Bytes} {n : Nat}
    (h : ∀ i, off ≤ i → i < off + n → mem'[i]? = mem[i]?) :
    readAt mem' off n = readAt mem off n := by
  apply ext_getElem?
  intro i
  unfold readAt
  by_cases hi : i < n
  · rw [getElem?_take_of_lt hi, getElem?_take_of_lt hi, getElem?_drop, getElem?_drop]
    exact h _ (by omega) (by omega)
  · rw [getElem?_take_eq_none (by omega), getElem?_take_eq_none (by omega)]

theorem readAt_writeAt_same (h : off + bs.length ≤ mem.length) :
    readAt (writeAt mem off bs) off bs.length = bs := by
  have hlen : (mem.take off).length = off := length_take_of_le (by omega)
  rw [readAt, writeAt, drop_left' hlen, take_left' rfl]

theorem readAt_writeAt_disjoint {off' n : Nat} (h : off + bs.length ≤ mem.length)
    (hdisjoint : off' + n ≤ off ∨ off + bs.length ≤ off') :
    readAt (writeAt mem off bs) off' n = readAt mem off' n := by
  apply readAt_congr
  intro i hi hi'
  rw [getElem?_writeAt h, if_neg (by omega)]

end NyxDb
