import NyxDb.Lib.Bitmap
import NyxDb.Lib.Memory
import NyxDb.Storage.ColumnContents
import NyxDb.Storage.SchemaFile

/-!
# Column pages as bytes

A column page is a header of 32 bytes and an area for the rest of the payload.  The area starts with
the bitmap of NULLs, if the column has one, and the slots of the values follow it.  A slot that is
given up by truncation keeps its bytes and its bit until it is used again.
`Holds` says which values a page has.
-/

namespace NyxDb

open List Bitmap ColumnFile

/-- The bytes of the payload after the header. -/
def pageArea : Nat := 8136

structure PageImage where
  type : TypeId
  nullable : Bool
  hasNulls : Bool
  valueCount : UInt16
  capacity : UInt16
  nullBitmapBytes : UInt16
  minBytes : Bytes
  maxBytes : Bytes
  nullCount : UInt16
  maxLen : UInt16
  area : Bytes
  deriving DecidableEq, Repr

namespace PageImage

/-- A page of zeros, made a column page. -/
def init (s : ColumnSpec) : PageImage where
  type := s.type
  nullable := s.nullable
  hasNulls := false
  valueCount := 0
  capacity := UInt16.ofNat s.capacity
  nullBitmapBytes := if s.nullable then UInt16.ofNat ((s.capacity + 7) / 8) else 0
  minBytes := replicate 8 0
  maxBytes := replicate 8 0
  nullCount := 0
  maxLen := s.maxLen
  area := replicate pageArea 0

/-- What the header says about the values. -/
def spec (p : PageImage) : ColumnSpec :=
  ⟨p.type, p.nullable, p.maxLen⟩

/-- The bytes between two slots. -/
def slotSize (p : PageImage) : Nat :=
  match p.type with
  | .varchar => p.maxLen.toNat + 2
  | t => typeSize t 0

def slotOffset (p : PageImage) (slot : Nat) : Nat :=
  p.nullBitmapBytes.toNat + slot * p.slotSize

def isFull (p : PageImage) : Bool :=
  decide (p.capacity ≤ p.valueCount)

def isNull (p : PageImage) (slot : Nat) : Bool :=
  if p.nullBitmapBytes = 0 then false
  else if p.valueCount.toNat ≤ slot then false
  else test p.area slot

/-! ## Appending -/

/-- The order of the values that have a smallest and a largest one kept. -/
def less : Value → Value → Bool
  | .int32 a, .int32 b => decide (a.toInt < b.toInt)
  | .int64 a, .int64 b => decide (a.toInt < b.toInt)
  | .double a, .double b => f64Lt a b
  | .date a, .date b => decide (a.toInt < b.toInt)
  | .timestamp a, .timestamp b => decide (a.toInt < b.toInt)
  | _, _ => false

/-- The value in the first bytes of a field of the header. -/
def fieldValue (t : TypeId) (field : Bytes) : Value :=
  ((readPayload t field).map Prod.fst).getD .null

def updateMinMax (v : Value) (p : PageImage) : PageImage :=
  let put (field : Bytes) : Bytes := writeAt field 0 (valueBytes v)
  if p.valueCount - p.nullCount = 0 then
    { p with minBytes := put p.minBytes, maxBytes := put p.maxBytes }
  else
    { p with
      minBytes := if less v (fieldValue v.type p.minBytes) then put p.minBytes else p.minBytes
      maxBytes := if less (fieldValue v.type p.maxBytes) v then put p.maxBytes else p.maxBytes }

/-- The bytes of a slot: a string is filled up with zeros. -/
def slotBytes (maxLen : UInt16) : Value → Bytes
  | .string s => valueBytes (.string s) ++ replicate (maxLen.toNat - s.length) 0
  | v => valueBytes v

/-- Fill the next slot. -/
def putValue (v : Value) (p : PageImage) : PageImage :=
  let area := writeAt p.area (p.slotOffset p.valueCount.toNat) (slotBytes p.maxLen v)
  { p with
    area := if p.nullBitmapBytes = 0 then area else clear area p.valueCount.toNat
    valueCount := p.valueCount + 1 }

def appendNull (p : PageImage) : Except Error PageImage :=
  if p.nullBitmapBytes = 0 then .error .columnNotNullable
  else if p.isFull then .error (.pageFull "append_null")
  else .ok
    { p with
      area := set p.area p.valueCount.toNat
      nullCount := p.nullCount + 1
      hasNulls := true
      valueCount := p.valueCount + 1 }

def appendStr (s : Bytes) (p : PageImage) : Except Error PageImage :=
  if p.type ≠ .varchar then .error (.pageTypeMismatch "append_str: column is not VARCHAR")
  else if p.isFull then .error (.pageFull "append_str")
  else if p.maxLen.toNat < s.length then .error (.stringTooLong s.length p.maxLen.toNat)
  else .ok (putValue (.string s) p)

def appendBool (b : Bool) (p : PageImage) : Except Error PageImage :=
  if p.type ≠ .bool then .error (.pageTypeMismatch "append_bool: type mismatch")
  else if p.isFull then .error (.pageFull "append_bool")
  else .ok (putValue (.bool b) p)

/-- `append_typed`, for the numbers, dates and timestamps. -/
def appendTyped (v : Value) (p : PageImage) : Except Error PageImage :=
  if p.type ≠ v.type then .error (.pageTypeMismatch "append: type mismatch")
  else if p.isFull then .error (.pageFull "append")
  else .ok (putValue v (updateMinMax v p))

/-- The append function of the page for a value. -/
def append : Value → PageImage → Except Error PageImage
  | .null, p => p.appendNull
  | .string s, p => p.appendStr s
  | .bool b, p => p.appendBool b
  | v, p => p.appendTyped v

/-! ## Truncation -/

/-- The bits and the slots from `newCount` on stay as they are. -/
def truncateTo (newCount : UInt16) (p : PageImage) : PageImage :=
  if p.valueCount ≤ newCount then p
  else
    let nulls := ((range newCount.toNat).filter fun i => test p.area i).length
    { p with
      nullCount := if p.nullable then UInt16.ofNat nulls else p.nullCount
      hasNulls := if p.nullable ∧ nulls = 0 then false else p.hasNulls
      valueCount := newCount }

/-! ## Reading -/

/-- `get_i32` and so on: the getter of a type. -/
def get (t : TypeId) (slot : Nat) (p : PageImage) : Except Error Value :=
  if p.type ≠ t then .error (.pageTypeMismatch "get: type mismatch")
  else if p.valueCount.toNat ≤ slot then .error .slotOutOfRange
  else if p.isNull slot then .error .valueIsNull
  else
    match readPayload t (p.area.drop (p.slotOffset slot)) with
    | some (v, _) => .ok v
    | none => .error .outOfBounds

/-- The string in a slot, whether the slot is in use or not, and also if it is NULL. -/
def getStr (slot : Nat) (p : PageImage) : Bytes :=
  readAt p.area (p.slotOffset slot + 2) (leNat (readAt p.area (p.slotOffset slot) 2))

/-- The value in a slot as the callers read it: NULL is asked for first. -/
def valueAt (slot : Nat) (p : PageImage) : Except Error Value :=
  if p.isNull slot then .ok .null
  else if p.type = .varchar then .ok (.string (p.getStr slot))
  else p.get p.type slot

/-! ## The layout of the area -/

end PageImage

namespace ColumnSpec

theorem capacity_lt (s : ColumnSpec) : s.capacity < 2 ^ 16 := by
  unfold capacity
  split
  · decide
  · split <;> exact Nat.mod_lt _ (by decide)

theorem layout_fits (s : ColumnSpec) : s.nullBitmapBytes + s.capacity * s.elemSize ≤ pageArea := by
  unfold nullBitmapBytes capacity pageArea
  by_cases hsize : s.elemSize = 0
  · simp [hsize]
  cases hnull : s.nullable with
  | false =>
    simp only [hsize, if_false, Bool.false_eq_true]
    have hmod := Nat.mod_le (8136 / s.elemSize) (2 ^ 16)
    have hdiv := Nat.div_mul_le_self 8136 s.elemSize
    have hmul := Nat.mul_le_mul_right s.elemSize hmod
    omega
  | true =>
    simp only [hsize, if_false, if_true]
    have hmod := Nat.mod_le (8136 * 8 / (s.elemSize * 8 + 1)) (2 ^ 16)
    have hdiv := Nat.div_mul_le_self (8136 * 8) (s.elemSize * 8 + 1)
    generalize 8136 * 8 / (s.elemSize * 8 + 1) % 2 ^ 16 = cap at hmod ⊢
    -- Eight times the bytes of the slots and one bit for each slot are in the bits of the area.
    have hbits : cap * (s.elemSize * 8 + 1) ≤ 8136 * 8 :=
      Nat.le_trans (Nat.mul_le_mul_right _ hmod) hdiv
    have hexpand : cap * (s.elemSize * 8 + 1) = cap * s.elemSize * 8 + cap := by ring
    omega

end ColumnSpec

namespace PageImage

/-- The page has these values, in a column of this kind. -/
structure Holds (s : ColumnSpec) (p : PageImage) (vals : List Value) : Prop where
  type : p.type = s.type
  nullable : p.nullable = s.nullable
  capacity : p.capacity.toNat = s.capacity
  bitmap : p.nullBitmapBytes.toNat = s.nullBitmapBytes
  maxLen : p.maxLen = s.maxLen
  sized : s.elemSize ≠ 0
  area : p.area.length = pageArea
  count : p.valueCount.toNat = vals.length
  count_le : vals.length ≤ s.capacity
  bits : s.nullBitmapBytes ≠ 0 → ∀ i v, vals[i]? = some v → test p.area i = v.isNull
  nulls : s.nullBitmapBytes = 0 → ∀ v ∈ vals, v.isNull = false
  slots : ∀ i v, vals[i]? = some v → v.isNull = false →
    v.type = s.type ∧ (slotBytes s.maxLen v).length = s.elemSize ∧ v.fits = true ∧
      readAt p.area (p.slotOffset i) s.elemSize = slotBytes s.maxLen v

namespace Holds

variable {s : ColumnSpec} {p : PageImage} {vals : List Value}

theorem slotSize (h : Holds s p vals) : p.slotSize = s.elemSize := by
  have hsized := h.sized
  unfold PageImage.slotSize ColumnSpec.elemSize at *
  rw [h.type, h.maxLen]
  cases htype : s.type <;> simp_all [typeSize]

theorem slotOffset (h : Holds s p vals) (i : Nat) :
    p.slotOffset i = s.nullBitmapBytes + i * s.elemSize := by
  rw [PageImage.slotOffset, h.bitmap, h.slotSize]

theorem slot_le (h : Holds s p vals) {i : Nat} (hi : i < s.capacity) :
    p.slotOffset i + s.elemSize ≤ p.area.length := by
  have hfits := s.layout_fits
  have hmul : (i + 1) * s.elemSize ≤ s.capacity * s.elemSize := Nat.mul_le_mul_right _ hi
  rw [Nat.succ_mul] at hmul
  rw [h.slotOffset, h.area]
  omega

theorem byte_lt (hbytes : s.nullBitmapBytes ≠ 0) {i : Nat} (hi : i < s.capacity) :
    i / 8 < s.nullBitmapBytes := by
  unfold ColumnSpec.nullBitmapBytes at *
  split
  · omega
  · simp_all

variable (h : Holds s p vals)
include h

theorem spec : p.spec = s := by
  rw [PageImage.spec, h.type, h.nullable, h.maxLen]

theorem isFull : p.isFull = decide (s.capacity ≤ vals.length) := by
  refine decide_eq_decide.2 ?_
  rw [UInt16.le_iff_toNat_le, h.capacity, h.count]

/-- A page with room does not refuse a value for being full. -/
theorem not_full (hroom : vals.length < s.capacity) : p.isFull = false := by
  rw [h.isFull]
  exact decide_eq_false (Nat.not_le.2 hroom)

theorem bitmap_eq_zero : p.nullBitmapBytes = 0 ↔ s.nullBitmapBytes = 0 := by
  rw [← h.bitmap, ← UInt16.toNat_inj]
  rfl

end Holds

variable {s : ColumnSpec} {i : Nat} {v : Value} {p : PageImage} {vals : List Value}

theorem holds_init (hsized : s.elemSize ≠ 0) : Holds s (init s) [] := by
  have hcap := s.capacity_lt
  refine ⟨rfl, rfl, ?_, ?_, rfl, hsized, by simp [init], rfl, Nat.zero_le _, by simp, by simp,
    by simp⟩
  · simp [init]
    omega
  · unfold init ColumnSpec.nullBitmapBytes
    split
    · simp
      omega
    · rfl

/-! ## What appending does -/

/-- Changing a byte before the offset is not seen. -/
theorem readAt_modify {mem : Bytes} {k off n : Nat} (f : UInt8 → UInt8) (hk : k < off) :
    readAt (mem.modify k f) off n = readAt mem off n := by
  apply readAt_congr
  intro i hi _
  have hne : k ≠ i := by omega
  rw [getElem?_modify]
  cases mem[i]? with
  | none => rfl
  | some b => simp [hne]

theorem slotBytes_of_accepts (hsized : s.elemSize ≠ 0) (hv : accepts s v = true)
    (hnull : v.isNull = false) :
    v.type = s.type ∧ (slotBytes s.maxLen v).length = s.elemSize ∧ v.fits = true := by
  unfold accepts at hv
  rw [hnull] at hv
  simp only [Bool.false_eq_true, if_false, Bool.and_eq_true, decide_eq_true_eq] at hv
  obtain ⟨htype, hstr⟩ := hv
  refine ⟨htype, ?_⟩
  unfold ColumnSpec.elemSize at *
  rw [← htype] at hsized ⊢
  cases v with
  | null => cases hnull
  | string str =>
    have hle : str.length ≤ s.maxLen.toNat := of_decide_eq_true hstr
    have hlt := s.maxLen.toNat_lt
    have hpos : 0 < s.maxLen.toNat := by
      by_contra hzero
      exact hsized (if_neg hzero)
    constructor
    · simp only [slotBytes, valueBytes, length_append, length_leBytes,
        length_replicate, Value.type, typeSize, if_pos hpos]
      omega
    · exact decide_eq_true (by omega)
  | bool b => exact ⟨rfl, rfl⟩
  | int32 x => exact ⟨length_leBytes _ _, rfl⟩
  | int64 x => exact ⟨length_leBytes _ _, rfl⟩
  | double x => exact ⟨length_leBytes _ _, rfl⟩
  | date x => exact ⟨length_leBytes _ _, rfl⟩
  | timestamp x => exact ⟨length_leBytes _ _, rfl⟩

section

variable (h : Holds s p vals)
include h

/-- One more value: the bits and the slots of the others are as before. -/
theorem Holds.grow (hroom : vals.length < s.capacity) {area : Bytes}
    (harea : area.length = p.area.length)
    (hbits : s.nullBitmapBytes ≠ 0 → ∀ i ≤ vals.length, test area i =
      if i = vals.length then v.isNull else test p.area i)
    (hnull : s.nullBitmapBytes = 0 → v.isNull = false)
    (hslots : ∀ i < vals.length, readAt area (p.slotOffset i) s.elemSize =
      readAt p.area (p.slotOffset i) s.elemSize)
    (hslot : v.isNull = false → v.type = s.type ∧ (slotBytes s.maxLen v).length = s.elemSize ∧
      v.fits = true ∧ readAt area (p.slotOffset vals.length) s.elemSize = slotBytes s.maxLen v)
    (nullCount : UInt16) (hasNulls : Bool) :
    Holds s { p with area, nullCount, hasNulls, valueCount := p.valueCount + 1 } (vals ++ [v]) := by
  have hlt := s.capacity_lt
  -- a value is one of the old ones or the new one
  have hcases : ∀ {i} {w}, (vals ++ [v])[i]? = some w →
      (i < vals.length ∧ vals[i]? = some w) ∨ (i = vals.length ∧ w = v) := by
    intro i w hw
    have hi := lt_of_getElem? hw
    rw [length_append, length_singleton] at hi
    by_cases heq : i = vals.length
    · rw [heq, getElem?_append_right (Nat.le_refl _), Nat.sub_self] at hw
      cases hw
      exact Or.inr ⟨heq, rfl⟩
    · rw [getElem?_append_left (by omega)] at hw
      exact Or.inl ⟨by omega, hw⟩
  refine { h with
    area := harea.trans h.area, count := ?_, count_le := ?_, bits := ?_, nulls := ?_, slots := ?_ }
  · have hone : (1 : UInt16).toNat = 1 := rfl
    rw [UInt16.toNat_add, h.count, length_append, length_singleton]
    omega
  · rw [length_append]
    exact hroom
  · intro hne i w hw
    rcases hcases hw with ⟨hi, hw⟩ | ⟨rfl, rfl⟩
    · rw [hbits hne i (by omega), if_neg (by omega), h.bits hne i w hw]
    · rw [hbits hne _ (Nat.le_refl _), if_pos rfl]
  · exact fun hzero => forall_mem_concat (h.nulls hzero) (hnull hzero)
  · intro i w hw hwnull
    rcases hcases hw with ⟨hi, hw⟩ | ⟨rfl, rfl⟩
    · obtain ⟨htype, hlen, hfits, hread⟩ := h.slots i w hw hwnull
      exact ⟨htype, hlen, hfits, (hslots i hi).trans hread⟩
    · exact hslot hwnull

theorem Holds.slot_disjoint {j : Nat} (hij : i < j) :
    p.slotOffset i + s.elemSize ≤ p.slotOffset j := by
  have hmul : (i + 1) * s.elemSize ≤ j * s.elemSize := Nat.mul_le_mul_right _ hij
  rw [Nat.succ_mul] at hmul
  rw [h.slotOffset, h.slotOffset]
  omega

theorem Holds.appendNull (hroom : vals.length < s.capacity)
    (hbytes : s.nullBitmapBytes ≠ 0) : ∃ q, p.appendNull = .ok q ∧ Holds s q (vals ++ [.null]) := by
  have hne : p.nullBitmapBytes ≠ 0 := fun heq => hbytes (h.bitmap_eq_zero.1 heq)
  have hbyte := Holds.byte_lt hbytes hroom
  have hfits := s.layout_fits
  refine ⟨_, by rw [PageImage.appendNull, if_neg hne, h.not_full hroom]; rfl,
    h.grow hroom (length_set _ _) ?_ (fun hzero => absurd hzero hbytes) ?_
      (fun hnull => by cases hnull) _ _⟩
  · intro _ i hi
    rw [h.count, test_set (by rw [h.area]; omega)]
    by_cases heq : i = vals.length
    · simp [heq, Value.isNull]
    · simp [heq, Ne.symm heq]
  · intro i _
    rw [h.count]
    apply readAt_modify
    rw [h.slotOffset]
    omega

/-- The next slot is filled. -/
theorem Holds.putValue (hroom : vals.length < s.capacity)
    (hv : accepts s v = true) (hnull : v.isNull = false) :
    Holds s (p.putValue v) (vals ++ [v]) := by
  obtain ⟨hvtype, hlen, hfits⟩ := slotBytes_of_accepts h.sized hv hnull
  -- The bytes that are written, and where.
  let written := writeAt p.area (p.slotOffset vals.length) (slotBytes s.maxLen v)
  have hwrite : p.slotOffset vals.length + (slotBytes s.maxLen v).length ≤ p.area.length := by
    rw [hlen]
    exact h.slot_le hroom
  have hput : (if p.nullBitmapBytes = 0 then
        writeAt p.area (p.slotOffset p.valueCount.toNat) (slotBytes p.maxLen v)
      else clear (writeAt p.area (p.slotOffset p.valueCount.toNat) (slotBytes p.maxLen v))
        p.valueCount.toNat) =
      if s.nullBitmapBytes = 0 then written else clear written vals.length := by
    simp [h.bitmap_eq_zero, h.count, h.maxLen, written]
  -- Clearing the bit is not seen in the slots.
  have hread : ∀ i, readAt (if s.nullBitmapBytes = 0 then written
      else clear written vals.length) (p.slotOffset i) s.elemSize =
      readAt written (p.slotOffset i) s.elemSize := by
    intro i
    split
    · rfl
    · rename_i hne
      apply readAt_modify
      have hbyte := Holds.byte_lt hne hroom
      rw [h.slotOffset]
      omega
  unfold PageImage.putValue
  dsimp only
  rw [hput]
  refine h.grow hroom ?_ ?_ (fun _ => hnull) ?_ ?_ p.nullCount p.hasNulls
  · split
    · exact length_writeAt hwrite
    · rw [length_clear]
      exact length_writeAt hwrite
  · intro hne i hi
    rw [if_neg hne, test_clear]
    by_cases heq : i = vals.length
    · simp [heq, hnull]
    · have hbyte : i / 8 < s.nullBitmapBytes := Holds.byte_lt hne (by omega)
      have hsame : test written i = test p.area i := by
        unfold test
        rw [getD_eq_getElem?_getD, getD_eq_getElem?_getD, getElem?_writeAt hwrite, if_neg]
        rw [h.slotOffset]
        omega
      rw [hsame]
      simp [heq, Ne.symm heq]
  · intro i hi
    rw [hread, readAt_writeAt_disjoint hwrite]
    exact Or.inl (h.slot_disjoint hi)
  · intro _
    refine ⟨hvtype, hlen, hfits, ?_⟩
    rw [hread, ← hlen]
    exact readAt_writeAt_same hwrite

/-- What the header keeps of the smallest and the largest value does not matter. -/
theorem Holds.updateMinMax (v : Value) :
    Holds s (p.updateMinMax v) vals := by
  unfold PageImage.updateMinMax
  split <;> exact { h with }

theorem Holds.type_of_accepts (hv : accepts s v = true)
    (hnull : v.isNull = false) : ¬ p.type ≠ v.type := by
  rw [h.type, (slotBytes_of_accepts h.sized hv hnull).1]
  exact fun hne => hne rfl

theorem Holds.appendTyped (hroom : vals.length < s.capacity)
    (hv : accepts s v = true) (hnull : v.isNull = false) :
    ∃ q, p.appendTyped v = .ok q ∧ Holds s q (vals ++ [v]) := by
  refine ⟨_, ?_, (h.updateMinMax v).putValue hroom hv hnull⟩
  rw [PageImage.appendTyped, if_neg (h.type_of_accepts hv hnull), h.not_full hroom]
  rfl

/-- What appending a value to a page with room does, taken or refused. -/
theorem Holds.append (hroom : vals.length < s.capacity) (v : Value) :
    if accepts s v = true then ∃ q, p.append v = .ok q ∧ Holds s q (vals ++ [v])
    else ∃ e, p.append v = .error e := by
  have hfull := h.not_full hroom
  cases hv : accepts s v with
  | true =>
    cases v with
    | null => exact h.appendNull hroom (by simpa [accepts, Value.isNull] using hv)
    | string str =>
      have hlen : str.length ≤ s.maxLen.toNat := by
        simp only [accepts, Value.isNull, Bool.false_eq_true, if_false,
          Bool.and_eq_true, decide_eq_true_eq] at hv
        exact hv.2
      refine ⟨_, ?_, h.putValue hroom hv rfl⟩
      have htype : ¬ p.type ≠ .varchar := h.type_of_accepts hv rfl
      rw [PageImage.append, appendStr, if_neg htype, hfull, h.maxLen, if_neg (Nat.not_lt.2 hlen)]
      rfl
    | bool b =>
      refine ⟨_, ?_, h.putValue hroom hv rfl⟩
      have htype : ¬ p.type ≠ .bool := h.type_of_accepts hv rfl
      rw [PageImage.append, appendBool, if_neg htype, hfull]
      rfl
    | int32 x | int64 x | double x | date x | timestamp x => exact h.appendTyped hroom hv rfl
  -- What is refused: a NULL without bitmap, a string too long, another type.
  | false =>
    cases v with
    | null =>
      have hzero : s.nullBitmapBytes = 0 := by
        simpa [accepts, Value.isNull] using hv
      exact ⟨_, if_pos (h.bitmap_eq_zero.2 hzero)⟩
    | string str =>
      by_cases htype : p.type ≠ .varchar
      · exact ⟨_, if_pos htype⟩
      · have hstype : TypeId.varchar = s.type := (not_not.1 htype).symm.trans h.type
        have hlong : s.maxLen.toNat < str.length := by
          simpa [accepts, Value.isNull, Value.type, hstype] using hv
        refine ⟨.stringTooLong str.length s.maxLen.toNat, ?_⟩
        rw [PageImage.append, appendStr, if_neg htype, hfull, h.maxLen, if_pos hlong]
        rfl
    | bool b | int32 x | int64 x | double x | date x | timestamp x =>
      refine ⟨_, if_pos ?_⟩
      rw [h.type]
      intro heq
      simp [accepts, Value.isNull, Value.type, heq] at hv

/-! ## What truncating and reading do -/

/-- The values after the first `n` are gone, though their bytes are not. -/
theorem Holds.truncateTo {n : Nat} (hn : n < 2 ^ 16) :
    Holds s (p.truncateTo (UInt16.ofNat n)) (vals.take n) := by
  have hcount := h.count
  have hofNat : (UInt16.ofNat n).toNat = n := by
    exact Nat.mod_eq_of_lt hn
  unfold PageImage.truncateTo
  by_cases hle : p.valueCount ≤ UInt16.ofNat n
  · rw [if_pos hle]
    rw [UInt16.le_iff_toNat_le, hofNat, hcount] at hle
    rw [take_of_length_le hle]
    exact h
  · rw [if_neg hle]
    rw [UInt16.le_iff_toNat_le] at hle
    have htake : ∀ (i : Nat) v, (vals.take n)[i]? = some v → vals[i]? = some v := by
      intro i v hv
      have hi := lt_of_getElem? hv
      rw [length_take] at hi
      rwa [getElem?_take_of_lt (by omega)] at hv
    refine { h with
      count := ?_
      count_le := Nat.le_trans (length_take_le' _ _) h.count_le
      bits := fun hne i v hv => h.bits hne i v (htake i v hv)
      nulls := fun hzero v hv => h.nulls hzero v (mem_of_mem_take hv)
      slots := fun i v hv => h.slots i v (htake i v hv) }
    rw [length_take]
    show (UInt16.ofNat n).toNat = _
    omega

section

variable (hv : vals[i]? = some v)
include hv

theorem Holds.isNull : p.isNull i = v.isNull := by
  have := lt_of_getElem? hv
  unfold PageImage.isNull
  by_cases hzero : p.nullBitmapBytes = 0
  · rw [if_pos hzero]
    exact (h.nulls (h.bitmap_eq_zero.1 hzero) v (mem_of_getElem? hv)).symm
  · rw [if_neg hzero, if_neg (by rw [h.count]; omega)]
    exact h.bits (fun heq => hzero (h.bitmap_eq_zero.2 heq)) i v hv

/-- A slot in use begins with the bytes of its value. -/
theorem Holds.drop_slot (hnull : v.isNull = false) :
    ∃ rest, p.area.drop (p.slotOffset i) = valueBytes v ++ rest := by
  obtain ⟨-, -, -, hread⟩ := h.slots i v hv hnull
  have hfront : ∃ pad, slotBytes s.maxLen v = valueBytes v ++ pad := by
    cases v with
    | string str => exact ⟨_, rfl⟩
    | _ => exact ⟨[], (append_nil _).symm⟩
  obtain ⟨pad, hpad⟩ := hfront
  rw [readAt] at hread
  rw [← take_append_drop s.elemSize (p.area.drop _), hread, hpad, append_assoc]
  exact ⟨_, rfl⟩

/-- The getter of the type returns the value, or says that it is NULL. -/
theorem Holds.get : p.get s.type i = if v.isNull then .error .valueIsNull else .ok v := by
  have := lt_of_getElem? hv
  rw [PageImage.get, if_neg (not_not.2 h.type), if_neg (by rw [h.count]; omega), h.isNull hv]
  cases hnull : v.isNull with
  | true => rfl
  | false =>
    obtain ⟨hvtype, -, hfits, -⟩ := h.slots i v hv hnull
    obtain ⟨rest, hrest⟩ := h.drop_slot hv hnull
    rw [if_neg Bool.false_ne_true, hrest, ← hvtype, reads_payload hnull hfits rest]
    rfl

end

theorem Holds.getStr {str : Bytes} (hv : vals[i]? = some (.string str)) :
    p.getStr i = str := by
  obtain ⟨-, -, hfits, -⟩ := h.slots i _ hv rfl
  obtain ⟨rest, hrest⟩ := h.drop_slot hv rfl
  have hlen : str.length < 256 ^ 2 := of_decide_eq_true hfits
  have hdrop : p.area.drop (p.slotOffset i) = leBytes 2 str.length ++ (str ++ rest) := by
    rw [hrest, valueBytes, append_assoc]
  have hcount : readAt p.area (p.slotOffset i) 2 = leBytes 2 str.length := by
    rw [readAt, hdrop, take_left' (length_leBytes _ _)]
  have hbody : p.area.drop (p.slotOffset i + 2) = str ++ rest := by
    rw [← drop_drop, hdrop, drop_left' (length_leBytes _ _)]
  rw [PageImage.getStr, hcount, leNat_leBytes_of_lt hlen, readAt, hbody, take_left' rfl]

/-- The value of a slot as it is read. -/
theorem Holds.valueAt (hv : vals[i]? = some v) : p.valueAt i = .ok v := by
  rw [PageImage.valueAt, h.isNull hv]
  cases hnull : v.isNull with
  | true =>
    cases v with
    | null => rfl
    | _ => cases hnull
  | false =>
    rw [if_neg Bool.false_ne_true, h.type]
    obtain ⟨hvtype, -⟩ := h.slots i v hv hnull
    by_cases hvarchar : s.type = .varchar
    · rw [if_pos hvarchar]
      cases v with
      | string str => rw [h.getStr hv]
      | _ =>
        rw [hvarchar] at hvtype
        cases hvtype
    · rw [if_neg hvarchar, h.get hv, hnull]
      rfl

end

/-- The values of a page in the order of the slots. -/
def values (p : PageImage) : Except Error (List Value) :=
  (range p.valueCount.toNat).mapM fun i => p.valueAt i

theorem Holds.values (h : Holds s p vals) : p.values = .ok vals := by
  rw [PageImage.values, h.count]
  exact mapM_range fun i v hv => h.valueAt hv

end PageImage
end NyxDb
