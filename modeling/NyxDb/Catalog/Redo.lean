import NyxDb.Catalog.Load
import NyxDb.Storage.TableReopen

/-!
# Replaying records on one table

Replay appends the rows of the records to the rows that were kept and marks the rows that the
records delete, each at the number of rows that the table has by then (`Replayed`).

`RedoOk t wb kept pend` says that the records `pend` lead from the first `kept` rows of the write
buffer to all of its rows `wb`, and that the rows they delete are marked in `t` already.  Then
replay gives back the rows and the deletions of `t`: deletions are on disk at once, rows only
later, and a deletion that is applied twice does no harm.
-/

namespace NyxDb

open List TableScan

namespace WalBody

/-- The rows that a record adds. -/
def newRows : WalBody → List Row
  | .insert _ rows => rows
  | .update _ _ rows => rows
  | _ => []

/-- The row ids that a record deletes. -/
def markedIds : WalBody → List Nat
  | .delete ids => ids
  | .update ids _ _ => ids
  | _ => []

/-- Whether the record changes rows. -/
def isRows : WalBody → Bool
  | .insert _ _ => true
  | .delete _ => true
  | .update _ _ _ => true
  | _ => false

end WalBody

open WalBody

namespace Table

/-! ## Tables that agree on ids and deletions -/

/-- The same ranges of row ids. -/
structure SameIds (t t' : Table) : Prop where
  infos : t'.segments.map Segment.info = t.segments.map Segment.info
  base : t'.wbBaseRowId = t.wbBaseRowId

/-- The same deletions. -/
def SameBits (t t' : Table) : Prop :=
  ∀ k l, rowBit t' k l = rowBit t k l

theorem rowBit_eq (t : Table) (k l : Nat) : rowBit t k l = Bitmap.test (t.bitmaps.getD k []) l := by
  have hparts : t.bitmaps = (parts t).map Part.deleted := by
    simp [bitmaps, parts, bufferPart, segmentPart]
  unfold rowBit
  rw [hparts, getD_eq_getElem?_getD, getElem?_map]
  cases (parts t)[k]? with
  | none => exact (Bitmap.test_nil l).symm
  | some p => rfl

/-- Equal bitmaps are the same deletions. -/
theorem sameBits_of_bitmaps {t t' : Table} (h : t'.bitmaps = t.bitmaps) : SameBits t t' := by
  intro k l
  rw [rowBit_eq, rowBit_eq, h]

theorem sameBits_withColumns (t : Table) (cols : List ColumnFile) :
    SameBits t (t.withColumns cols) :=
  sameBits_of_bitmaps rfl

section SameIds

variable {t t' : Table}

section

variable (h : SameIds t t')
include h

theorem SameIds.trans {t'' : Table} (h' : SameIds t' t'') : SameIds t t'' :=
  ⟨h'.infos.trans h.infos, h'.base.trans h.base⟩

theorem SameIds.length : t'.segments.length = t.segments.length := by
  have := congrArg List.length h.infos
  simpa using this

theorem SameIds.info? {β : Type} (f : SegmentMeta → β) (i : Nat) :
    (t'.segments[i]?).map (fun s => f s.info) = (t.segments[i]?).map fun s => f s.info := by
  have hi := congrArg (fun l : List SegmentMeta => (l[i]?).map f) h.infos
  simp only [getElem?_map, Option.map_map] at hi
  exact hi

theorem SameIds.segmentIds (gids : List Nat) (i : Nat) :
    segmentIds t'.segments gids i = segmentIds t.segments gids i := by
  have hof : ∀ gid, segmentOf t'.segments gid = segmentOf t.segments gid := by
    intro gid
    unfold segmentOf
    simp [h.info? SegmentMeta.baseRowId, h.length]
  unfold Table.segmentIds
  simp [hof, h.info? SegmentMeta.baseRowId]

/-- What marking hits depends on the ranges of the ids only. -/
theorem SameIds.hitsAt (count : Nat) (gids : List Nat) (k l : Nat) :
    hitsAt t' count gids k l = hitsAt t count gids k l := by
  unfold Table.hitsAt bufferIds idsOfSegment
  rw [h.length, h.base, h.segmentIds]
  by_cases hk : k < t.segments.length
  · have hinfo := h.info? SegmentMeta.rowCount k
    rw [getElem?_eq_getElem (h.length.symm ▸ hk), getElem?_eq_getElem hk] at hinfo
    rw [getElem?_eq_getElem (h.length.symm ▸ hk), getElem?_eq_getElem hk]
    simp only [Option.map_some, Option.some.injEq] at hinfo
    simp [hinfo]
  · rw [if_neg hk, if_neg hk]

end

theorem hitsAt_nil (t : Table) (n k l : Nat) : hitsAt t n [] k l = false := by
  unfold Table.hitsAt bufferIds idsOfSegment Table.segmentIds
  split
  · cases t.segments[k]? <;> simp
  · simp

theorem sameIds_marked (t : Table) (gids : List Nat) : SameIds t (t.marked gids) := by
  obtain ⟨_, _, hmarked, -⟩ := marked_eq t gids
  rw [hmarked]
  exact ⟨map_info_marked _ _, rfl⟩

end SameIds

theorem rowBit_part {t : Table} {k : Nat} {p : Part}
    (hp : (parts t)[k]? = some p) (l : Nat) :
    rowBit t k l = Bitmap.test p.deleted l := by
  unfold rowBit
  rw [hp]

/-! ## Replay -/

/-- The rows that records add. -/
def addedRows (pend : List WalBody) : List Row :=
  pend.flatMap newRows

theorem addedRows_append (xs ys : List WalBody) :
    addedRows (xs ++ ys) = addedRows xs ++ addedRows ys :=
  flatMap_append

/-- Whether replay of the records on a write buffer of `n` rows marks row `l` of part `k`. -/
def replayMarks (t : Table) (n : Nat) (pend : List WalBody) (k l : Nat) : Bool :=
  match pend with
  | [] => false
  | body :: pend =>
    hitsAt t n body.markedIds k l || replayMarks t (n + body.newRows.length) pend k l

theorem replayMarks_append (t : Table) (pre post : List WalBody) (n k l : Nat) :
    replayMarks t n (pre ++ post) k l =
      (replayMarks t n pre k l || replayMarks t (n + (addedRows pre).length) post k l) := by
  induction pre generalizing n with
  | nil => simp [replayMarks, addedRows]
  | cons body pre ih =>
    rw [cons_append, replayMarks, replayMarks, ih, Bool.or_assoc]
    simp [addedRows, Nat.add_assoc]

theorem SameIds.replayMarks {t t' : Table} (h : SameIds t t') (pend : List WalBody) (n k l : Nat) :
    replayMarks t' n pend k l = replayMarks t n pend k l := by
  induction pend generalizing n with
  | nil => rfl
  | cons body pend ih => rw [Table.replayMarks, Table.replayMarks, h.hitsAt, ih]

/-- A table that has been brought from the rows `kept` and the deletions of `t` by the records
`pre`. -/
structure Replayed (t : Table) (segs : List (List Row)) (kept : List Row) (pre : List WalBody)
    (t' : Table) : Prop where
  holds : Holds t' segs (kept ++ addedRows pre) kept.length
  files : Files t'
  schema : t'.schema = t.schema
  ids : SameIds t t'
  bits : ∀ k l, rowBit t' k l = (rowBit t k l || replayMarks t kept.length pre k l)

section Replay

variable {t t' : Table} {segs : List (List Row)} {kept : List Row} {pre : List WalBody}
  {body : WalBody} (h : Replayed t segs kept pre t')
include h

/-- The first half of a step: marking the rows that the record deletes. -/
theorem Replayed.marked_bits (k l : Nat) : rowBit (t'.marked body.markedIds) k l =
      (rowBit t k l || replayMarks t kept.length (pre ++ [body]) k l) := by
  have hcount : t'.wbRowCount = kept.length + (addedRows pre).length := by
    rw [h.holds.wbRowCount, length_append]
  rw [rowBit_marked, h.bits, h.ids.hitsAt, hcount, replayMarks_append, Bool.or_assoc]
  simp [replayMarks]

variable (hconf : ∀ row ∈ body.newRows, Conforms t.schema row)
  (hroom : kept.length + (addedRows (pre ++ [body])).length < flushThresholdDefault)
include hconf hroom

/-- The second half of a step: appending the new rows of the record. -/
theorem Replayed.exec_append : ∃ t'', exec (insertMany body.newRows) (t'.marked body.markedIds) =
        (.ok body.newRows.length, t'') ∧
      Replayed t segs kept (pre ++ [body]) t'' := by
  have hheld := h.holds.marked body.markedIds
  have hfiles := h.files.marked body.markedIds
  have hadded : addedRows (pre ++ [body]) = addedRows pre ++ body.newRows := by
    simp [addedRows]
  rw [hadded, length_append] at hroom
  have hrows : ∀ row ∈ body.newRows, Conforms (t'.marked body.markedIds).schema row := by
    rw [schema_marked, h.schema]
    exact hconf
  obtain ⟨cols, hexec, hheld'⟩ := hheld.exec_insertMany_append hrows (by
      rw [hfiles.threshold, length_append]
      omega)
  have hids : SameIds t (t'.marked body.markedIds) := h.ids.trans (sameIds_marked _ _)
  refine ⟨_, hexec, ?_, hfiles.withColumns cols, (schema_marked _ _).trans h.schema,
    ⟨hids.infos, hids.base⟩, fun k l => ?_⟩
  · rw [hadded, ← append_assoc]
    exact hheld'
  · rw [← h.marked_bits]
    exact sameBits_withColumns _ cols k l

/-- **One record** brings the table one step further. -/
theorem Replayed.step (name : Bytes) :
    ∃ t'', exec (Catalog.replayRows name body) t' = (.ok (), t'') ∧
      Replayed t segs kept (pre ++ [body]) t'' := by
  obtain ⟨t'', hexec, h'⟩ := h.exec_append hconf hroom
  refine ⟨t'', ?_, h'⟩
  cases body with
  | insert schema rows =>
    have hinsert : exec (insertMany rows) t' = (.ok rows.length, t'') := by
      rw [← marked_nil t']
      exact hexec
    rw [Catalog.replayRows, exec_mapError, exec_bind_ok hinsert]
    rfl
  | update ids schema rows =>
    have hinsert : exec (insertMany rows) (t'.marked ids) = (.ok rows.length, t'') := hexec
    have hmark : exec (mapError (Catalog.replayContext "update (delete)" name)
        (Table.markDeleted ids)) t' = (.ok (), t'.marked ids) := by
      rw [exec_mapError, Table.exec_markDeleted]
      rfl
    rw [Catalog.replayRows, exec_bind_ok hmark, exec_mapError, exec_bind_ok hinsert]
    rfl
  | delete ids =>
    have hnone : t'' = t'.marked ids := (congrArg Prod.snd hexec).symm
    rw [Catalog.replayRows, exec_mapError, Table.exec_markDeleted, hnone]
    rfl
  | createTable schema =>
    have hnone : t'' = t'.marked [] := (congrArg Prod.snd hexec).symm
    rw [hnone, marked_nil]
    rfl
  | segmentFlush count =>
    have hnone : t'' = t'.marked [] := (congrArg Prod.snd hexec).symm
    rw [hnone, marked_nil]
    rfl

end Replay

/-! ## Redo -/

/-- The records lead from the first `kept` rows of the write buffer to all of them, and what they
delete is deleted already. -/
structure RedoOk (t : Table) (wb : List Row) (kept : Nat) (pend : List WalBody) : Prop where
  rows : wb = wb.take kept ++ addedRows pend
  marks : ∀ k l, replayMarks t kept pend k l = true → rowBit t k l = true

section Redo

variable {t t' : Table} {wb : List Row} {kept : Nat} {pend : List WalBody}

/-- Nothing needs to be replayed on a table whose rows are all kept. -/
theorem redoOk_nil (t : Table) {wb : List Row} {kept : Nat} (hkept : wb.length ≤ kept) :
    RedoOk t wb kept [] where
  rows := by simp [addedRows, take_of_length_le hkept]
  marks _ _ h := by cases h

/-- **A statement extends the records**: it appends the new rows of its record and sets the bits
of the rows that the record deletes. -/
theorem RedoOk.extend (h : RedoOk t wb kept pend) (hkept : kept ≤ wb.length) (hids : SameIds t t')
    {body : WalBody}
    (hbits : ∀ k l, rowBit t' k l = (rowBit t k l || hitsAt t wb.length body.markedIds k l)) :
    RedoOk t' (wb ++ body.newRows) kept (pend ++ [body]) where
  rows := by
    rw [addedRows_append, take_append_of_le_length hkept, ← append_assoc, ← h.rows]
    simp [addedRows]
  marks k l hmark := by
    have hlen : wb.length = kept + (addedRows pend).length := by
      have := congrArg List.length h.rows
      rwa [length_append, length_take_of_le hkept] at this
    rw [hids.replayMarks, replayMarks_append, ← hlen, Bool.or_eq_true] at hmark
    rw [hbits, Bool.or_eq_true]
    rcases hmark with hold | hnew
    · exact Or.inl (h.marks k l hold)
    · right
      simpa [replayMarks] using hnew

/-- **Replay gives back the table**: the same rows, ranges of ids and deletions. -/
theorem RedoOk.replayed {segs : List (List Row)} {t₀ t' : Table} (h : RedoOk t wb kept pend)
    (hkept : kept ≤ wb.length) (hids : SameIds t t₀) (hbits : SameBits t t₀)
    (hr : Replayed t₀ segs (wb.take kept) pend t') :
    Holds t' segs wb kept ∧ SameIds t t' ∧ SameBits t t' := by
  have hlen : (wb.take kept).length = kept := length_take_of_le hkept
  refine ⟨?_, hids.trans hr.ids, fun k l => ?_⟩
  · have hheld := hr.holds
    rwa [← h.rows, hlen] at hheld
  · rw [hr.bits, hbits, hlen, hids.replayMarks]
    cases hmark : replayMarks t kept pend k l with
    | false => rw [Bool.or_false]
    | true => rw [h.marks k l hmark, Bool.or_true]

end Redo

end Table
end NyxDb
