import NyxDb.Storage.TableOps

/-!
# Creating, opening and truncating tables

Opening the directory of a table finds the rows of all segments, and of the write buffer as many
rows as the column files hold; these may be different numbers for different columns.  Truncation
makes them equal again.
-/

namespace NyxDb.Table

open List Segment ColumnFile

variable {t : Table} {segs : List (List Row)} {wb : List Row} {dur : Nat}

variable {schema : Schema} {col : ColumnFile} {rows : List Row} {t' : Table} {ss : List Segment}

section

variable (hcap : ∀ c ∈ schema, 0 < c.spec.capacity)
include hcap

/-- A new table is empty, whatever its schema file reads as. -/
theorem create_stored (h : create schema flushThresholdDefault = .ok t) : Holds t [] [] 0 := by
  obtain ⟨_, hcols, heach⟩ := createColumns_hold hcap
  obtain ⟨hvalid, _, hcols', rfl⟩ := create_eq_ok h
  cases hcols.symm.trans hcols'
  refine ⟨.nil, heach, by simp, ?_, rfl⟩
  rintro rfl
  cases hvalid

theorem create_holds_of_read (hread : readSchema (schemaBytes schema) = .ok schema)
    (h : create schema flushThresholdDefault = .ok t) :
    Holds t [] [] 0 ∧ Files t ∧ t.schema = schema ∧ t.segments = [] ∧ t.wbBaseRowId = 0 ∧
      t.wbDeleted = [] := by
  refine ⟨create_stored hcap h, ?_⟩
  obtain ⟨-, _, -, rfl⟩ := create_eq_ok h
  exact ⟨⟨hread, rfl, rfl, rfl, by simp, by simp, rfl⟩, rfl, rfl, rfl, rfl⟩

/-- A table with a valid schema whose columns have room can be created. -/
theorem create_of_valid (hvalid : validateSchema schema = .ok ()) (flushThreshold : Nat) :
    ∃ t, create schema flushThreshold = .ok t := by
  obtain ⟨_, hcols, -⟩ := createColumns_hold hcap
  unfold create
  rw [hvalid, hcols]
  exact ⟨_, rfl⟩

end

/-! ## What the files hold -/

/-- The column holds some of the rows, its file at least `dur` of them. -/
def Partly (rows : List Row) (dur : Nat) (i : Nat) (col : ColumnFile) : Prop :=
  ∃ m d, m ≤ rows.length ∧ Stores col (columnOf i (rows.take m)) d ∧ dur ≤ d.length

/-- The files of the segment hold the rows. -/
structure SegmentOnDisk (schema : Schema) (s : Segment) (rows : List Row) : Prop where
  count : s.info.rowCount = rows.length
  columns : Written schema s.columns rows

/-- What the files of the table hold: the rows of the segments, and of the write buffer at least
the first `dur` rows in every column.  Nothing is said about what is in memory. -/
structure OnFiles (t : Table) (segs : List (List Row)) (wb : List Row) (dur : Nat) : Prop where
  segments : Forall₂ (SegmentOnDisk t.schema) t.segments segs
  buffer : EachColumn t.schema t.wbColumns (Partly wb dur)
  conforms : ∀ rows ∈ segs ++ [wb], ∀ row ∈ rows, Conforms t.schema row
  nonempty : t.schema ≠ []

theorem Holds.onFiles (h : Holds t segs wb dur) : OnFiles t segs wb dur where
  segments := h.segments.imp fun _ _ hs => ⟨hs.count, hs.columns⟩
  buffer := h.buffer.imp fun _ _ ⟨d, _, hdur⟩ =>
    ⟨wb.length, d, Nat.le_refl _, by rwa [take_length], hdur⟩
  conforms := h.conforms
  nonempty := h.nonempty

/-- The bitmaps in the files, those of the segments first. -/
def fileBitmaps (t : Table) : List Bytes :=
  t.segments.map (fun s => s.deletedFile.getD []) ++ [t.deletedFile.getD []]

/-- The bitmaps in memory. -/
def bitmaps (t : Table) : List Bytes :=
  t.segments.map deleted ++ [t.wbDeleted]

theorem Holds.fileBitmaps (h : Holds t segs wb dur) : t.fileBitmaps = t.bitmaps := by
  have hsegs : t.segments.map (fun s => s.deletedFile.getD []) = t.segments.map deleted := by
    refine map_congr_left fun s hs => ?_
    obtain ⟨_, -, hheld⟩ := forall₂_mem_left h.segments hs
    exact hheld.file
  unfold Table.fileBitmaps Table.bitmaps
  rw [hsegs, h.file]

/-- The rows that opening the directory of `t` finds. -/
structure RowsFound (t : Table) (segs : List (List Row)) (wb : List Row) (dur : Nat) (t' : Table) :
    Prop where
  schema : t'.schema = t.schema
  segments : Forall₂ (SegmentHolds t.schema) t'.segments segs
  infos : t'.segments.map info = t.segments.map info
  bits : t'.bitmaps = t.fileBitmaps
  columns : EachColumn t.schema t'.wbColumns (OnDisk wb dur)
  columnFiles : t'.wbColumns.map file = t.wbColumns.map file
  base : t'.wbBaseRowId = totalRows (t.segments.map info)

/-- The table that is opened when nothing else lies in the directory. -/
structure Reopened (t : Table) (segs : List (List Row)) (wb : List Row) (dur : Nat) (t' : Table) :
    Prop extends RowsFound t segs wb dur t' where
  file : t'.deletedFile.getD [] = t'.wbDeleted
  files : Files t'

/-- The same, with the directories that no segment uses. -/
structure Found (t : Table) (segs : List (List Row)) (wb : List Row) (dur : Nat) (t' : Table) :
    Prop extends RowsFound t segs wb dur t' where
  deleted : t'.deletedFile = t.deletedFile
  buffer : t'.wbDeleted = t.deletedFile.getD []
  unused : t'.unusedSegments = t.unusedSegments
  next : t'.nextSegmentId = ((t.segments.map info).map fun m => m.id + 1).foldl max 0
  threshold : t'.flushThreshold = flushThresholdDefault
  dirs : Dirs t'

theorem lookup_segments (hids : (ss.map fun s => s.info.id).Nodup)
    {s : Segment} (hs : s ∈ ss) (rest : List (Nat × SegmentDir)) :
    (ss.map (fun s => (s.info.id, s.dir)) ++ rest).lookup s.info.id = some s.dir := by
  induction ss with
  | nil => cases hs
  | cons s₀ ss ih =>
    rw [map_cons, nodup_cons] at hids
    rw [map_cons, cons_append, lookup_cons]
    rcases mem_cons.mp hs with rfl | hs
    · simp
    · have hne : s.info.id ≠ s₀.info.id := by
        intro heq
        exact hids.1 (heq ▸ mem_map_of_mem (f := fun s => s.info.id) hs)
      rw [beq_eq_false_iff_ne.mpr hne]
      exact ih hids.2 hs

/-- A segment is found as it was. -/
theorem SegmentOnDisk.openDir {s : Segment} (h : SegmentOnDisk schema s rows) :
    ∃ s', Segment.openDir s.dir schema s.info = .ok s' ∧ SegmentHolds schema s' rows ∧
      s'.info = s.info ∧ s'.deleted = s.deletedFile.getD [] := by
  obtain ⟨_, hopen, heach⟩ := h.columns.openSegment s.info s.deletedFile
  exact ⟨_, hopen, ⟨h.count, heach, rfl⟩, rfl, rfl⟩

theorem foldl_max_ids (ms : List SegmentMeta) (n : Nat) :
    n ≤ (ms.map fun m => m.id + 1).foldl max n ∧
      ∀ m ∈ ms, m.id < (ms.map fun m => m.id + 1).foldl max n := by
  induction ms generalizing n with
  | nil => simp
  | cons m ms ih =>
    obtain ⟨hn, hms⟩ := ih (max n (m.id + 1))
    refine ⟨Nat.le_trans (Nat.le_max_left _ _) hn, fun x hx => ?_⟩
    rcases mem_cons.mp hx with rfl | hx
    · exact Nat.lt_of_lt_of_le (Nat.lt_succ_self _) (Nat.le_trans (Nat.le_max_right _ _) hn)
    · exact hms x hx

theorem named_of_nodup (h : (ss.map fun s => s.info.id).Nodup) :
    Named ss (((ss.map info).map fun m => m.id + 1).foldl max 0) :=
  ⟨h, fun s hs => (foldl_max_ids _ 0).2 s.info (mem_map_of_mem hs)⟩

/-- The segments of a manifest are found as they were. -/
theorem openSegments {d : TableDir} (h : Forall₂ (SegmentOnDisk schema) ss segs)
    (hlook : ∀ s ∈ ss, d.segments.lookup s.info.id = some s.dir) :
    ∃ ss', (ss.map info).mapM (openSegment d schema) = .ok ss' ∧
      Forall₂ (SegmentHolds schema) ss' segs ∧ ss'.map info = ss.map info ∧
      ss'.map deleted = ss.map fun s => s.deletedFile.getD [] := by
  induction h with
  | nil => exact ⟨[], rfl, .nil, rfl, rfl⟩
  | @cons s rows ss segs hs _ ih =>
    obtain ⟨s', hopen, hheld, hinfo, hdel⟩ := hs.openDir
    obtain ⟨ss', hss', hheld', hinfos, hdels⟩ := ih fun x hx => hlook x (mem_cons_of_mem _ hx)
    have hone : openSegment d schema s.info = .ok s' := by
      unfold openSegment
      simp [hlook s mem_cons_self, hopen]
    refine ⟨s' :: ss', ?_, .cons hheld hheld', ?_, ?_⟩
    · rw [map_cons, mapM_cons, hone, hss']
      rfl
    · rw [map_cons, map_cons, hinfo, hinfos]
    · rw [map_cons, map_cons, hdel, hdels]

theorem openFile_of_partly {i : Nat} (h : Partly rows dur i col) :
    ∃ col', openFile col.file = .ok col' ∧ col'.file = col.file ∧
      OnDisk rows dur i col' := by
  obtain ⟨m, d, hm, hst, hdur⟩ := h
  obtain ⟨col', hopen, hfile, n, hn, hle, hst'⟩ :=
    (show Full (rows.take m) dur i col from ⟨d, hst, hdur⟩).openFile
  refine ⟨col', hopen, hfile, n, hn, Nat.le_trans hle (length_take_le' _ _), ?_⟩
  rw [length_take_of_le hm] at hle
  rwa [take_take, Nat.min_eq_left hle] at hst'

theorem openColumn_eq_ok {c : Column} {file : Option ColumnDisk} (h : openColumn c file = .ok col) :
    openFile (file.getD ⟨c.spec, []⟩) = .ok col ∧ col.spec = c.spec := by
  unfold openColumn at h
  grind

theorem openColumn_file {c : Column} {file : ColumnDisk} (h : openColumn c (some file) = .ok col) :
    col.file = file := by
  have hopen := (openColumn_eq_ok h).1
  unfold openFile at hopen
  grind

theorem openColumns_files {cols cols' : List ColumnFile} (hlen : cols.length = schema.length)
    (h : (withFiles schema cols).mapM (fun (c, file) => openColumn c file) = .ok cols') :
    cols'.map file = cols.map file := by
  obtain ⟨hlen', hopen⟩ := forall₂_iff_get.mp (forall₂_of_mapM h)
  have hcount : cols'.length = cols.length := by
    rw [← hlen', withFiles, length_zip, length_append, length_map]
    omega
  refine ext_getElem (by simpa using hcount) fun i hi hi' => ?_
  rw [length_map] at hi hi'
  have hone := hopen i (hlen' ▸ hi) hi
  simp only [get_eq_getElem, withFiles, getElem_zip] at hone
  rw [getElem_append_left (by simpa using hi'), getElem_map] at hone
  rw [getElem_map, getElem_map]
  exact openColumn_file hone

theorem foldl_max_le {ms : List SegmentMeta} {n bound : Nat} (hn : n ≤ bound)
    (h : ∀ m ∈ ms, m.id < bound) : (ms.map fun m => m.id + 1).foldl max n ≤ bound := by
  induction ms generalizing n with
  | nil => exact hn
  | cons m ms ih =>
    apply ih
    · exact Nat.max_le.mpr ⟨hn, h m mem_cons_self⟩
    · exact fun x hx => h x (mem_cons_of_mem _ hx)

section

variable (h : OnFiles t segs wb dur)
include h

/-- Opening a table with directories that no segment uses. -/
theorem OnFiles.openDir_found (hdirs : Dirs t) :
    ∃ t', openDir t.dir = .ok t' ∧ Found t segs wb dur t' := by
  have hdir := dir_of_settled hdirs.settled
  obtain ⟨ss, hss, hheld, hinfos, hbits⟩ := openSegments (d := t.dir) h.segments (by
    intro s hs
    rw [hdir]
    exact lookup_segments hdirs.ids hs t.unusedSegments)
  obtain ⟨cols, hcols, heach⟩ := h.buffer.openFiles
    (f := fun (c, file) => openColumn c file) (Q := OnDisk wb dur) (by
      intro i c col hspec hpart
      obtain ⟨col', hopen, hfile, hdisk⟩ := openFile_of_partly hpart
      have hspec' : col'.spec = col.spec := congrArg ColumnDisk.spec hfile
      refine ⟨col', ?_, hspec', hdisk⟩
      simp [openColumn, hopen, hspec', hspec])
  have hnamed := (named_of_nodup hdirs.ids).congr hinfos
  have hcolumns : cols.map file = t.wbColumns.map file :=
    openColumns_files h.buffer.length hcols
  -- the directories of the segments are in use, the others are not
  have hunused : (t.segments.map (fun s => (s.info.id, s.dir)) ++ t.unusedSegments).filter
      (fun x => !((t.segments.map info).map SegmentMeta.id).contains x.1) =
      t.unusedSegments := by
    rw [filter_append, filter_eq_nil_iff.mpr, nil_append, filter_eq_self.mpr]
    · intro x hx
      simp only [Bool.not_eq_true', contains_eq_mem, decide_eq_false_iff_not]
      intro hmem
      rw [map_map] at hmem
      obtain ⟨s, hs, heq⟩ := mem_map.mp hmem
      exact hdirs.apart x hx s hs heq.symm
    · intro x hx
      obtain ⟨s, hs, rfl⟩ := mem_map.mp hx
      simp only [map_map, Bool.not_eq_true, Bool.not_eq_false', contains_iff_mem]
      exact mem_map_of_mem (f := SegmentMeta.id ∘ info) hs
  unfold Table.openDir
  rw [hdir] at hss ⊢
  simp only [hdirs.schema, hdirs.manifest, hss]
  show ∃ t', ((withFiles t.schema t.wbColumns).mapM fun (c, file) => openColumn c file) >>= _ =
    .ok t' ∧ _
  rw [hcols]
  refine ⟨_, rfl, ⟨rfl, hheld, hinfos, ?_, heach, hcolumns, rfl⟩, rfl, rfl, hunused, rfl, rfl, ?_⟩
  · show ss.map deleted ++ [t.deletedFile.getD []] = _
    rw [hbits]
    rfl
  · refine ⟨hdirs.schema, hdirs.manifest.trans hinfos.symm, rfl, hnamed.1, hnamed.2, ?_⟩
    intro x hx s hs
    rw [hunused] at hx
    obtain ⟨s₀, hs₀, heq⟩ := mem_map.mp (hinfos ▸ mem_map_of_mem hs)
    rw [← heq]
    exact hdirs.apart x hx s₀ hs₀

/-- **Opening a table** finds its segments and what the files of the write buffer hold. -/
theorem OnFiles.openDir (hfiles : Files t) :
    ∃ t', openDir t.dir = .ok t' ∧ Reopened t segs wb dur t' := by
  obtain ⟨t', hopen, hf⟩ := h.openDir_found hfiles.dirs
  refine ⟨t', hopen, { hf with file := ?_, files := ?_ }⟩
  · rw [hf.deleted, hf.buffer]
  · exact { hf.dirs with unused := hf.unused.trans hfiles.unused, threshold := hf.threshold }

/-- A table that was written completely is found as it was. -/
theorem OnFiles.holds_of_complete (hdur : wb.length ≤ dur) (hf : RowsFound t segs wb dur t')
    (hfile : t'.deletedFile.getD [] = t'.wbDeleted) : Holds t' segs wb wb.length where
  segments := hf.schema ▸ hf.segments
  buffer := by
    rw [hf.schema]
    refine hf.columns.imp fun i col ⟨n, hn, hle, hst⟩ => ?_
    rw [take_of_length_le (Nat.le_trans hdur hn)] at hst
    exact ⟨_, hst, by rw [length_columnOf]⟩
  conforms := hf.schema ▸ h.conforms
  nonempty := hf.schema ▸ h.nonempty
  file := hfile

end

theorem Found.holds (hf : Found t segs wb dur t') (h : OnFiles t segs wb dur)
    (hdur : wb.length ≤ dur) : Holds t' segs wb wb.length := by
  apply h.holds_of_complete hdur hf.toRowsFound
  rw [hf.deleted, hf.buffer]

/-- **Truncation** to rows that every file has. -/
theorem Reopened.exec_truncate (hr : Reopened t segs wb dur t') (h : OnFiles t segs wb dur)
    (target : Nat) (hn : target - t'.wbBaseRowId ≤ dur) :
    ∃ cols, exec (truncate target) t' = (.ok (), t'.withColumns cols) ∧
      Holds (t'.withColumns cols) segs (wb.take (target - t'.wbBaseRowId))
        (target - t'.wbBaseRowId) := by
  obtain ⟨cols, hexec, hcols⟩ := hr.columns.exec_truncate hn
  refine ⟨cols, ?_, ?_⟩
  · rw [truncate, exec_get_bind, exec_onColumns, hexec]
  · refine ⟨hr.schema ▸ hr.segments, hr.schema ▸ hcols, ?_, hr.schema ▸ h.nonempty, hr.file⟩
    show ∀ rows ∈ _, ∀ row ∈ rows, Conforms t'.schema row
    rw [hr.schema]
    exact forall_mem_concat (fun rows hrows => h.conforms rows (mem_append_left _ hrows))
      fun row hrow => h.conforms wb (by simp) row (mem_of_mem_take hrow)

end NyxDb.Table
