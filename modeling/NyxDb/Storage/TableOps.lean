import NyxDb.Storage.TableRows

/-!
# Specifications of the operations on tables

Each operation takes a table with known rows to a table with known rows.  The tables are given by
updates of the fields that change, so that everything else is seen to stay as it was.
-/

namespace NyxDb.Table

open List

variable {t : Table} {segs : List (List Row)} {wb : List Row} {dur : Nat}

/-- The table with other columns in the write buffer. -/
def withColumns (t : Table) (cols : List ColumnFile) : Table :=
  { t with wbColumns := cols }

theorem exec_onColumns (ops : List (Op ColumnFile Unit)) (t : Table) :
    exec (onColumns ops) t = ((exec (Proc.each ops) t.wbColumns).1,
      t.withColumns (exec (Proc.each ops) t.wbColumns).2) := rfl

variable {cols : List ColumnFile} {n : Nat} {rows : List Row}

theorem Holds.withColumns (h : Holds t segs wb dur) {wb' : List Row} {dur' : Nat}
    (hcols : EachColumn t.schema cols (Full wb' dur'))
    (hrows : ∀ row ∈ wb', Conforms t.schema row) :
    Holds (t.withColumns cols) segs wb' dur' :=
  { h with
    buffer := hcols
    conforms :=
      forall_mem_concat (fun rows hmem => h.conforms rows (mem_append_left _ hmem)) hrows }

theorem Files.withColumns (h : Files t) (cols : List ColumnFile) : Files (t.withColumns cols) :=
  { h with }

theorem Holds.conforms_buffer (h : Holds t segs wb dur) : ∀ row ∈ wb, Conforms t.schema row :=
  h.conforms wb (by simp)

theorem Holds.exec_flush (h : Holds t segs wb dur) :
    ∃ cols, exec flush t = (.ok (), t.withColumns cols) ∧
      Holds (t.withColumns cols) segs wb wb.length ∧
      Written t.schema cols wb := by
  obtain ⟨cols, hexec, hcols⟩ := h.buffer.exec_flush
  refine ⟨cols, ?_, h.withColumns ?_ h.conforms_buffer, hcols⟩
  · rw [flush, exec_get_bind, exec_onColumns, hexec]
  · exact hcols.imp fun i _ hst => ⟨_, hst, by rw [length_columnOf]⟩

/-! ## Sealing -/

/-- The table `t'` is `t` after its write buffer with the rows `wb` became a segment. -/
structure SealedTo (t : Table) (wb : List Row) (t' : Table) : Prop where
  schema : t'.schema = t.schema
  segments : ∃ seg, t'.segments = t.segments ++ [seg] ∧ seg.deleted = t.wbDeleted ∧
    seg.info = ⟨t.nextSegmentId, t.wbBaseRowId, wb.length⟩
  base : t'.wbBaseRowId = t.wbBaseRowId + wb.length
  deleted : t'.wbDeleted = []
  files : Files t'

theorem Dirs.sealed (h : Dirs t) {seg : Segment} (hid : seg.info.id = t.nextSegmentId) :
    Dirs (t.sealed seg cols) where
  schema := h.schema
  manifest := rfl
  settled := rfl
  ids := (Named.append ⟨h.ids, h.fresh⟩ hid).1
  fresh := (Named.append ⟨h.ids, h.fresh⟩ hid).2
  apart x hx := by
    obtain ⟨hx, hne⟩ := mem_filter.mp hx
    exact forall_mem_concat (h.apart x hx) (by simpa [hid] using hne)

theorem Files.sealed (h : Files t) {seg : Segment} (hid : seg.info.id = t.nextSegmentId) :
    Files (t.sealed seg cols) := by
  have hdirs : Dirs (t.sealed seg cols) := h.dirs.sealed hid
  have hunused : (t.sealed seg cols).unusedSegments = [] := by
    show t.unusedSegments.filter _ = []
    rw [h.unused]
    rfl
  exact { hdirs with unused := hunused, threshold := h.threshold }

/-- A seal of an empty write buffer does nothing. -/
theorem Holds.exec_seal_nil (h : Holds t segs [] dur) : exec flushWriteBuffer t = (.ok (), t) := by
  have hempty : t.wbRowCount = 0 := h.wbRowCount
  rw [flushWriteBuffer, exec_get_bind, if_pos hempty]
  rfl

/-- What a seal makes of a write buffer with rows.  The bits of the new segment are those in
`deleted.bin`, or else those that were left in its directory. -/
theorem Holds.exec_seal (h : Holds t segs wb dur) (hne : wb ≠ []) :
    ∃ cols seg cols', exec flushWriteBuffer t = (.ok (), (t.withColumns cols).sealed seg cols') ∧
      seg.info = ⟨t.nextSegmentId, t.wbBaseRowId, wb.length⟩ ∧
      seg.deleted = t.sealedDir.deleted.getD [] ∧
      (t.withColumns cols).wbRowCount = wb.length ∧
      Holds ((t.withColumns cols).sealed seg cols') (segs ++ [wb]) [] 0 := by
  obtain ⟨cols, hflush, hheld, hcols⟩ := h.exec_flush
  have hcount : (t.withColumns cols).wbRowCount = wb.length := hheld.wbRowCount
  -- the files of the columns become those of the segment
  obtain ⟨segCols, hseg, heach⟩ := hcols.openSegment ⟨t.nextSegmentId, t.wbBaseRowId, wb.length⟩
    t.sealedDir.deleted
  obtain ⟨cols', hcreate, hcols'⟩ := createColumns_hold fun c hc => h.buffer.cap_pos hc
  refine ⟨cols, ⟨⟨t.nextSegmentId, t.wbBaseRowId, wb.length⟩, segCols, _, t.sealedDir.deleted⟩,
    cols', ?_, rfl, rfl, hcount, ?_⟩
  · unfold flushWriteBuffer
    rw [exec_get_bind, if_neg (by
      rw [h.wbRowCount]
      exact fun h0 => hne (length_eq_zero_iff.mp h0)),
      exec_bind_ok hflush, exec_get_bind, hcount,
      exec_bind_ok (exec_crashPoints _ _)]
    show exec (mapError _ (ofExcept (Segment.openDir ⟨cols.map _, t.sealedDir.deleted⟩ t.schema
      ⟨t.nextSegmentId, t.wbBaseRowId, wb.length⟩)) >>= _) _ = _
    rw [hseg, exec_bind_ok (by rw [exec_mapError]; rfl)]
    show exec (mapError _ (ofExcept (createColumns t.schema)) >>= _) _ = _
    rw [hcreate, exec_bind_ok (by rw [exec_mapError]; rfl)]
    rfl
  · exact ⟨rel_append h.segments (.cons ⟨rfl, heach, rfl⟩ .nil), hcols',
      forall_mem_concat h.conforms nofun, h.nonempty, rfl⟩

/-- A write buffer with rows can be sealed. -/
theorem Holds.exec_flushWriteBuffer (h : Holds t segs wb dur) (hfiles : Files t) (hne : wb ≠ []) :
    ∃ t', exec flushWriteBuffer t = (.ok (), t') ∧ Holds t' (segs ++ [wb]) [] 0 ∧
      SealedTo t wb t' := by
  obtain ⟨cols, seg, _, hexec, hinfo, hbits, hcount, hheld⟩ := h.exec_seal hne
  have hdeleted : t.sealedDir.deleted = t.deletedFile := by
    show t.deletedFile.or ((t.unusedSegments.lookup t.nextSegmentId).bind SegmentDir.deleted) = _
    rw [hfiles.unused]
    simp
  rw [hdeleted, h.file] at hbits
  refine ⟨_, hexec, hheld, rfl, ⟨seg, rfl, hbits, hinfo⟩, ?_, rfl, ?_⟩
  · show t.wbBaseRowId + (t.withColumns cols).wbRowCount = _
    rw [hcount]
  · exact (hfiles.withColumns cols).sealed (congrArg SegmentMeta.id hinfo)

/-! ## Inserting -/

/-- Rows of the right length are appended to the columns before anything else happens. -/
theorem exec_insertMany (hne : rows ≠ []) (hlen : ∀ row ∈ rows, row.length = t.wbColumns.length) :
    exec (insertMany rows) t = exec (do
      onColumns (zipWith appendColumn t.schema (columnBatches t.wbColumns.length rows))
      maybeFlush
      pure rows.length) t := by
  obtain ⟨row, _, rfl⟩ := exists_cons_of_ne_nil hne
  rw [insertMany, exec_get_bind, isEmpty_cons,
    if_neg Bool.false_ne_true, find?_eq_none.mpr (by simpa using hlen)]

section

variable (h : Holds t segs wb dur)
include h

/-- The rows of a successful insertion conform to the schema. -/
theorem Holds.conforms_of_insertMany
    (hok : (exec (insertMany rows) t).1 = .ok n) : ∀ row ∈ rows, Conforms t.schema row := by
  by_cases hne : rows = []
  · subst hne
    exact fun row hrow => by cases hrow
  have hlen : ∀ row ∈ rows, row.length = t.wbColumns.length := by
    intro row hrow
    by_contra hbad
    obtain ⟨first, rest, rfl⟩ := exists_cons_of_ne_nil hne
    rw [insertMany, exec_get_bind] at hok
    cases hfind : (first :: rest).find? fun row => decide (row.length ≠ t.wbColumns.length) with
    | none => exact absurd hbad (by simpa using find?_eq_none.mp hfind row hrow)
    | some bad =>
      rw [hfind] at hok
      cases hok
  rw [exec_insertMany hne hlen, exec_bind, exec_onColumns] at hok
  refine h.buffer.conforms_of_append (fun row hrow => (hlen row hrow).trans h.buffer.length) ?_
  rcases hrun : (exec (Proc.each (zipWith appendColumn t.schema
      (columnBatches t.wbColumns.length rows))) t.wbColumns).1 with e | ⟨⟩
  · rw [hrun] at hok
    cases hok
  · rfl

/-- Rows that conform are appended to the write buffer; it is sealed when it is full. -/
theorem Holds.exec_insertMany (hne : rows ≠ []) (hrows : ∀ row ∈ rows, Conforms t.schema row) :
    ∃ cols, Holds (t.withColumns cols) segs (wb ++ rows) dur ∧ exec (insertMany rows) t =
        exec (do maybeFlush; pure rows.length) (t.withColumns cols) := by
  obtain ⟨cols, hexec, hcols⟩ := h.buffer.exec_append hrows
  refine ⟨cols, h.withColumns hcols ?_, ?_⟩
  · intro row hrow
    rcases mem_append.mp hrow with hrow | hrow
    · exact h.conforms_buffer row hrow
    · exact hrows row hrow
  · rw [Table.exec_insertMany hne fun row hrow =>
      (hrows row hrow).length.trans h.buffer.length.symm]
    rw [exec_bind_ok (by rw [exec_onColumns, hexec])]

/-- An insertion that leaves room in the write buffer. -/
theorem Holds.exec_insertMany_append (hrows : ∀ row ∈ rows, Conforms t.schema row)
    (hroom : wb.length + rows.length < t.flushThreshold) :
    ∃ cols, exec (insertMany rows) t = (.ok rows.length, t.withColumns cols) ∧
      Holds (t.withColumns cols) segs (wb ++ rows) dur := by
  by_cases hne : rows = []
  · subst hne
    exact ⟨t.wbColumns, rfl, by rwa [append_nil]⟩
  · obtain ⟨cols, hheld, hexec⟩ := h.exec_insertMany hne hrows
    have hmaybe : exec maybeFlush (t.withColumns cols) = (.ok (), t.withColumns cols) := by
      rw [maybeFlush, exec_get_bind, if_neg]
      · rfl
      · rw [hheld.wbRowCount, length_append]
        show ¬ t.flushThreshold ≤ _
        omega
    refine ⟨cols, ?_, hheld⟩
    rw [hexec, exec_bind_ok hmaybe]
    rfl

/-- An insertion that fills the write buffer. -/
theorem Holds.exec_insertMany_seal (hfiles : Files t) (hne : rows ≠ [])
    (hrows : ∀ row ∈ rows, Conforms t.schema row)
    (hfull : t.flushThreshold ≤ wb.length + rows.length) :
    ∃ t', exec (insertMany rows) t = (.ok rows.length, t') ∧
      Holds t' (segs ++ [wb ++ rows]) [] 0 ∧ SealedTo t (wb ++ rows) t' := by
  obtain ⟨cols, hheld, hexec⟩ := h.exec_insertMany hne hrows
  obtain ⟨t', hseal, hheld', hsealed⟩ :=
    hheld.exec_flushWriteBuffer (hfiles.withColumns cols) (by simp [hne])
  have hmaybe : exec maybeFlush (t.withColumns cols) = (.ok (), t') := by
    rw [maybeFlush, exec_get_bind, if_pos]
    · exact hseal
    · rw [hheld.wbRowCount, length_append]
      exact hfull
  refine ⟨t', ?_, hheld', { hsealed with }⟩
  rw [hexec, exec_bind_ok hmaybe]
  rfl

end

/-! ## Deleting -/

theorem wbColumns_marked (t : Table) (gids : List Nat) :
    (t.marked gids).wbColumns = t.wbColumns := by
  obtain ⟨_, _, hmarked, -⟩ := marked_eq t gids
  rw [hmarked]

theorem schema_marked (t : Table) (gids : List Nat) : (t.marked gids).schema = t.schema := by
  obtain ⟨_, _, hmarked, -⟩ := marked_eq t gids
  rw [hmarked]

theorem SegmentHolds.marked {schema : Schema} {s : Segment} (h : SegmentHolds schema s rows)
    (ids : List Nat) : SegmentHolds schema (s.marked ids) rows where
  count := by
    rw [Segment.info_marked]
    exact h.count
  columns := by
    unfold Segment.marked
    split <;> exact h.columns
  file := by
    unfold Segment.marked
    split
    · exact h.file
    · exact deletedFileOf_getD _

/-- Deleting leaves the rows where they are. -/
theorem Holds.marked (h : Holds t segs wb dur) (gids : List Nat) :
    Holds (t.marked gids) segs wb dur := by
  obtain ⟨_, _, hmarked, hbits⟩ := marked_eq t gids
  rw [hmarked]
  refine ⟨?_, h.buffer, h.conforms, h.nonempty, ?_⟩
  · obtain ⟨hlen, hsegs⟩ := forall₂_iff_get.mp h.segments
    refine forall₂_iff_get.mpr ⟨by simpa using hlen, fun i hi hi' => ?_⟩
    have hs := (hsegs i (by simpa using hi) hi').marked (t.idsOfSegment gids i)
    simpa using hs
  · rcases hbits with ⟨rfl, rfl⟩ | ⟨-, rfl, rfl⟩
    · exact h.file
    · exact deletedFileOf_getD _

theorem Files.marked (h : Files t) (gids : List Nat) : Files (t.marked gids) := by
  obtain ⟨_, _, hmarked, -⟩ := marked_eq t gids
  have hinfos := map_info_marked t.segments fun i => t.idsOfSegment gids i
  have hnamed := Named.congr ⟨h.ids, h.fresh⟩ hinfos
  rw [hmarked]
  exact { h with manifest := h.manifest.trans hinfos.symm, ids := hnamed.1, fresh := hnamed.2 }

variable (h : Holds t segs wb dur)
include h

/-- The rows of a successful update or insertion, and the two ways in which it ends. -/
theorem Holds.exec_apply (hfiles : Files t)
    (hroom : wb.length < t.flushThreshold) {ids : List Nat} {t' : Table}
    (hexec : exec (insertMany rows) (t.marked ids) = (.ok n, t')) :
    (∀ row ∈ rows, Conforms t.schema row) ∧ ((wb.length + rows.length < t.flushThreshold ∧
          ∃ cols, t' = (t.marked ids).withColumns cols ∧ Holds t' segs (wb ++ rows) dur) ∨
        (rows ≠ [] ∧ t.flushThreshold ≤ wb.length + rows.length ∧
          Holds t' (segs ++ [wb ++ rows]) [] 0 ∧ SealedTo (t.marked ids) (wb ++ rows) t')) := by
  have hheld := h.marked ids
  have hconf := hheld.conforms_of_insertMany (congrArg Prod.fst hexec)
  have hthreshold : (t.marked ids).flushThreshold = t.flushThreshold := by
    rw [(hfiles.marked ids).threshold, hfiles.threshold]
  rcases Nat.lt_or_ge (wb.length + rows.length) t.flushThreshold with hlt | hge
  · obtain ⟨cols, hexec', hheld'⟩ := hheld.exec_insertMany_append hconf (by rwa [hthreshold])
    rw [hexec] at hexec'
    obtain ⟨-, rfl⟩ := Prod.mk.inj hexec'
    exact ⟨schema_marked t ids ▸ hconf, Or.inl ⟨hlt, cols, rfl, hheld'⟩⟩
  · have hne : rows ≠ [] := by
      rintro rfl
      simp only [length_nil, Nat.add_zero] at hge
      omega
    obtain ⟨_, hexec', hheld', hsealed⟩ :=
      hheld.exec_insertMany_seal (hfiles.marked ids) hne hconf (by rwa [hthreshold])
    rw [hexec] at hexec'
    obtain ⟨-, rfl⟩ := Prod.mk.inj hexec'
    exact ⟨schema_marked t ids ▸ hconf, Or.inr ⟨hne, hge, hheld', hsealed⟩⟩

/-! ## The tables that operations leave -/

theorem Holds.afterInsert (new : List Row) (hnew : ∀ row ∈ new, Conforms t.schema row)
    (hroom : wb.length + new.length < t.flushThreshold) :
    Holds (exec (insertMany new) t).2 segs (wb ++ new) dur := by
  obtain ⟨_, hexec, hheld⟩ := h.exec_insertMany_append hnew hroom
  rw [hexec]
  exact hheld

theorem Holds.afterDelete (gids : List Nat) : Holds (exec (markDeleted gids) t).2 segs wb dur := by
  rw [exec_markDeleted]
  exact h.marked gids

theorem Holds.afterSeal (hne : wb ≠ []) :
    Holds (exec flushWriteBuffer t).2 (segs ++ [wb]) [] 0 := by
  obtain ⟨_, _, _, hexec, -, -, -, hheld⟩ := h.exec_seal hne
  rw [hexec]
  exact hheld

theorem Holds.afterFlush : Holds (exec flush t).2 segs wb wb.length := by
  obtain ⟨_, hexec, hheld, -⟩ := h.exec_flush
  rw [hexec]
  exact hheld

end NyxDb.Table
