import NyxDb.Storage.Table

/-!
# What a deletion does

Marking rows as deleted always succeeds.  The bits in memory and in the files agree afterwards.
-/

namespace NyxDb

open List Bitmap

theorem test_markBits (bm : Bytes) (n : Nat) (ids : List Nat) (j : Nat) :
    test (markBits bm n ids) j =
      (test bm j || (decide (j < n) && decide (j ∈ ids))) := by
  unfold markBits
  rw [test_setAll, test_resize]
  · simp [Bool.and_comm]
  · intro i hi
    rw [mem_filter, decide_eq_true_eq] at hi
    rw [length_resize]
    exact Nat.lt_of_lt_of_le (div_lt_bytesFor hi.2) (Nat.le_max_right _ _)

/-- What `deleted.bin` holds for a bitmap. -/
def deletedFileOf (bm : Bytes) : Option Bytes :=
  if bm.isEmpty then none else some bm

theorem deletedFileOf_getD (bm : Bytes) : (deletedFileOf bm).getD [] = bm := by
  cases bm <;> rfl

namespace Segment

/-- The segment after `markDeleted`. -/
def marked (s : Segment) (ids : List Nat) : Segment :=
  if ids.isEmpty then s
  else
    let bm := markBits s.deleted s.info.rowCount ids
    { s with deleted := bm, deletedFile := deletedFileOf bm }

theorem exec_markDeleted (ids : List Nat) (s : Segment) :
    exec (markDeleted ids) s = (.ok (), s.marked ids) := by
  unfold markDeleted marked
  cases hids : ids.isEmpty with
  | true => rfl
  | false =>
    simp only [Bool.false_eq_true, if_false]
    rw [exec_bind_ok (exec_modify _ s)]
    generalize markBits s.deleted s.info.rowCount ids = bm
    cases bm <;> rfl

theorem info_marked (s : Segment) (ids : List Nat) : (s.marked ids).info = s.info := by
  unfold marked
  split <;> rfl

theorem test_marked (s : Segment) (ids : List Nat) (j : Nat) :
    test (s.marked ids).deleted j =
      (test s.deleted j || (decide (j < s.info.rowCount) && decide (j ∈ ids))) := by
  unfold marked
  cases ids with
  | nil => simp
  | cons i is => exact test_markBits _ _ _ _

end Segment

namespace Table

/-- The table after bits of the write buffer were set. -/
def markedBuffer (t : Table) (ids : List Nat) : Table :=
  if ids.isEmpty then t
  else
    let bm := markBits t.wbDeleted t.wbRowCount ids
    { t with wbDeleted := bm, deletedFile := deletedFileOf bm }

theorem exec_markWriteBuffer (ids : List Nat) (t : Table) :
    exec (markWriteBuffer ids) t = (.ok (), t.markedBuffer ids) := by
  unfold markWriteBuffer markedBuffer
  cases hids : ids.isEmpty with
  | true => rfl
  | false =>
    simp only [Bool.false_eq_true, if_false]
    rw [exec_bind_ok (exec_modify _ t)]
    generalize markBits t.wbDeleted t.wbRowCount ids = bm
    cases bm <;> rfl

/-- The local ids of the write buffer among some row ids. -/
def bufferIds (t : Table) (gids : List Nat) : List Nat :=
  (gids.filter fun gid => decide (t.wbBaseRowId ≤ gid)).map fun gid => gid - t.wbBaseRowId

/-- The local ids of segment `i` among some row ids. -/
def idsOfSegment (t : Table) (gids : List Nat) (i : Nat) : List Nat :=
  segmentIds t.segments (gids.filter fun gid => !decide (t.wbBaseRowId ≤ gid)) i

/-- The table after `markDeleted`. -/
def marked (t : Table) (gids : List Nat) : Table :=
  let t' := t.markedBuffer (t.bufferIds gids)
  { t' with segments := t.segments.mapIdx fun i s => s.marked (t.idsOfSegment gids i) }

theorem segments_markedBuffer (t : Table) (ids : List Nat) :
    (t.markedBuffer ids).segments = t.segments := by
  unfold markedBuffer
  split <;> rfl

/-- Marking changes the bits and their files only. -/
theorem marked_eq (t : Table) (gids : List Nat) : ∃ bm file, t.marked gids = { t with
      segments := t.segments.mapIdx fun i s => s.marked (t.idsOfSegment gids i)
      wbDeleted := bm
      deletedFile := file } ∧
    ((bm = t.wbDeleted ∧ file = t.deletedFile) ∨
      ∃ ids, bm = markBits t.wbDeleted t.wbRowCount ids ∧ file = deletedFileOf bm) := by
  unfold marked markedBuffer
  split
  · exact ⟨_, _, rfl, .inl ⟨rfl, rfl⟩⟩
  · exact ⟨_, _, rfl, .inr ⟨_, rfl, rfl⟩⟩

theorem marked_nil (t : Table) : t.marked [] = t := by
  have hsame : t.segments.mapIdx (fun i s => s.marked (t.idsOfSegment [] i)) = t.segments := by
    refine ext_getElem (by simp) fun i _ _ => ?_
    simp [idsOfSegment, segmentIds, Segment.marked]
  unfold marked
  rw [hsame]
  rfl

theorem exec_markDeleted (gids : List Nat) (t : Table) :
    exec (markDeleted gids) t = (.ok (), t.marked gids) := by
  have hmapIdx : ∀ ids : Nat → List Nat, zipWith (fun (c : Op Segment Unit) x => (exec c x).2)
        ((range t.segments.length).map fun i => Segment.markDeleted (ids i)) t.segments =
      t.segments.mapIdx fun i s => s.marked (ids i) := by
    intro ids
    refine ext_getElem (by simp) fun i _ _ => ?_
    simp [Segment.exec_markDeleted]
  unfold markDeleted
  cases gids with
  | nil =>
    rw [marked_nil]
    rfl
  | cons g gids =>
    simp only [isEmpty_cons, Bool.false_eq_true, if_false]
    rw [exec_get_bind]
    simp only [partition_eq_filter_filter]
    rw [exec_bind_ok (exec_markWriteBuffer _ t), exec_zoom, segments_markedBuffer,
      Proc.exec_each_eq, hmapIdx]
    · rfl
    · rw [forall₂_iff_get]
      simp [Segment.exec_markDeleted]

theorem snd_updateRows (old : List Nat) (rows : List Row) (t : Table) :
    (exec (updateRows old rows) t).2 = (exec (insertMany rows) (t.marked old)).2 := by
  rw [updateRows, exec_bind_ok (exec_markDeleted old t), exec_get_bind, exec_bind]
  rcases exec (insertMany rows) (t.marked old) with ⟨_ | _, _⟩ <;> rfl

end Table
end NyxDb
