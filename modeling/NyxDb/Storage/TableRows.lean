import NyxDb.Storage.TableContents

/-!
# Tables with known rows

`Table.Holds t segs wb dur` says what an open table holds: the rows of its segments, the rows of
its write buffer, and that the column files of the write buffer have at least `dur` of these.
The operations on tables are specified in these terms.  A scan returns, part by part, the rows
that are not marked as deleted, each with its row id.
-/

namespace NyxDb

open ColumnFile (Stores)
open List TableScan

namespace TableScan

/-- The part holds the rows. -/
structure PartHolds (schema : Schema) (p : Part) (rows : List Row) : Prop where
  count : p.localRowCount = rows.length
  columns : EachColumn schema p.columns (Full rows 0)
  widths : ∀ row ∈ rows, row.length = schema.length

/-- Row `l` with its id. -/
def rowAt (p : Part) (rows : List Row) (l : Nat) : Nat × Row :=
  (p.baseRowId + l, rows.getD l [])

/-- The live rows of a part with their ids. -/
def partRows (p : Part) (rows : List Row) : List (Nat × Row) :=
  (liveIds p).map (rowAt p rows)

theorem readCol_eq {c : ColumnFile} {vals d : List Value} (h : Stores c vals d) :
    ∀ fuel cursor remaining, remaining ≤ fuel → cursor + remaining ≤ vals.length →
      readCol c fuel cursor remaining = .ok ((vals.drop cursor).take remaining) := by
  intro fuel
  induction fuel with
  | zero =>
    intro cursor remaining hfuel _
    obtain rfl : remaining = 0 := by omega
    rfl
  | succ fuel ih =>
    intro cursor remaining hfuel hlen
    cases remaining with
    | zero => rfl
    | succ remaining =>
      obtain ⟨page, hpage, _, _, hrest⟩ := h.readPage_drop (r := cursor) (by omega)
      have hcap := h.cap_pos
      unfold readCol
      rw [if_neg (by omega), hpage]
      simp only
      rw [if_neg (by omega)]
      -- the page may end before the chunk does
      have htaken : min (page.length - cursor % c.capacity) (remaining + 1) ≤ remaining + 1 :=
        Nat.min_le_right _ _
      have hpos : 0 < min (page.length - cursor % c.capacity) (remaining + 1) := by
        omega
      have hin : min (page.length - cursor % c.capacity) (remaining + 1) ≤
          (page.drop (cursor % c.capacity)).length := by
        rw [length_drop]
        exact Nat.min_le_left _ _
      generalize min (page.length - cursor % c.capacity) (remaining + 1) = taken at *
      rw [ih (cursor + taken) (remaining + 1 - taken) (by omega) (by omega)]
      have hsame : (page.drop (cursor % c.capacity)).take taken =
          (vals.drop cursor).take taken := by
        rw [← hrest, take_append_of_le_length hin]
      rw [hsame, ← drop_drop]
      have hsplit : remaining + 1 = taken + (remaining + 1 - taken) := by omega
      conv_rhs => rw [hsplit]
      rw [take_add]

variable {p : Part} {rows : List Row} {schema : Schema}

theorem readChunk_eq (h : PartHolds schema p rows) {start count : Nat}
    (hlen : start + count ≤ rows.length) :
    readChunk p start count = .ok ((range' start count).map (rowAt p rows)) := by
  have hcols : p.columns.mapM (fun c => readCol c count start count) =
      .ok ((range schema.length).map fun i => ((columnOf i rows).drop start).take count) := by
    refine mapM_of_forall₂ (forall₂_iff_get.mpr ⟨by simp [h.columns.length], ?_⟩)
    intro i hi _
    have hi' : i < schema.length := by
      rw [← h.columns.length]
      exact hi
    obtain ⟨_, d, hst, _⟩ := h.columns.column (getElem?_eq_getElem hi') (getElem?_eq_getElem hi)
    have hread := readCol_eq hst count start count (Nat.le_refl _) (by rwa [length_columnOf])
    simpa using hread
  unfold readChunk
  rw [hcols]
  refine congrArg Except.ok (ext_getElem (by simp) fun j hj _ => ?_)
  have hj' : j < count := by simpa using hj
  have hrow : start + j < rows.length := by omega
  simp only [getElem_map, getElem_range, getElem_range', rowAt, Nat.one_mul, map_map]
  rw [Nat.add_assoc]
  refine congrArg (Prod.mk _) ?_
  have hwidth := h.widths _ (getElem_mem hrow)
  rw [getD_eq_getElem _ _ hrow]
  -- column by column, the chunk has the values of the row
  refine ext_getElem (by simp [hwidth]) fun i hi hi' => ?_
  simp [columnOf, getD_eq_getElem?_getD, getElem?_drop, hj',
    getElem?_eq_getElem hrow, getElem?_eq_getElem hi']

theorem readRange_eq (h : PartHolds schema p rows) {stop : Nat} (hstop : stop ≤ rows.length) :
    ∀ fuel start, stop - start ≤ fuel →
      readRange p fuel start stop = .ok ((rangeIds (start, stop)).map (rowAt p rows)) := by
  intro fuel
  induction fuel with
  | zero =>
    intro start hfuel
    rw [rangeIds_of_le (by omega)]
    rfl
  | succ fuel ih =>
    intro start hfuel
    by_cases hlt : start < stop
    · obtain ⟨count, hpos, hle, hstep⟩ := readRange_succ p fuel hlt
      rw [hstep, readChunk_eq h (hle.trans hstop), ih (start + count) (by omega),
        rangeIds_split hle, map_append]
      rfl
    · rw [readRange, if_neg hlt, rangeIds_of_le (by omega)]
      rfl

theorem le_of_mem_survivors {r : Nat × Nat} (h : r ∈ survivors p) :
    r.2 ≤ p.localRowCount ∨ rangeIds r = [] := by
  by_cases hr : r.1 < r.2
  · have hlast : r.2 - 1 ∈ (survivors p).flatMap rangeIds := by
      refine mem_flatMap.mpr ⟨r, h, ?_⟩
      rw [rangeIds, mem_range'_1]
      omega
    rw [survivors_ids, liveIds, mem_filter, mem_range] at hlast
    omega
  · exact Or.inr (rangeIds_of_le (by omega))

/-- **A scan of a part** returns its live rows. -/
theorem readPart_eq (h : PartHolds schema p rows) : readPart p = .ok (partRows p rows) := by
  have hranges : (survivors p).mapM (fun r => readRange p (r.2 - r.1) r.1 r.2) =
      .ok ((survivors p).map fun r => (rangeIds r).map (rowAt p rows)) := by
    refine mapM_eq_ok fun r hr => ?_
    rcases le_of_mem_survivors hr with hle | hnil
    · exact readRange_eq h (h.count ▸ hle) _ _ (Nat.le_refl _)
    · have hempty : r.2 - r.1 = 0 := by
        have := congrArg length hnil
        simpa [rangeIds] using this
      simp only [hempty, hnil]
      rfl
  change ((survivors p).mapM fun r => readRange p (r.2 - r.1) r.1 r.2) >>= _ = _
  rw [hranges]
  show Except.ok _ = Except.ok _
  rw [partRows, ← survivors_ids, map_flatMap, flatMap_def]

end TableScan

/-- Columns that were written are opened as those of a segment. -/
theorem EachColumn.openSegment {schema : Schema} {cols : List ColumnFile} {rows : List Row}
    (h : Written schema cols rows) (info : SegmentMeta) (deleted : Option Bytes) :
    ∃ cols', Segment.openDir ⟨cols.map fun c => some c.file, deleted⟩ schema info =
        .ok ⟨info, cols', deleted.getD [], deleted⟩ ∧ Written schema cols' rows := by
  obtain ⟨cols', hcols', heach⟩ := h.openFiles (f := fun x => Segment.openColumn x.1 x.2)
    (Q := fun i col => Stores col (columnOf i rows) (columnOf i rows)) (by
      intro i c col hspec hst
      obtain ⟨col', hopen, hfile, hst'⟩ := ColumnFile.openFile_stores hst
      refine ⟨col', ?_, congrArg ColumnDisk.spec hfile, hst'⟩
      simp [Segment.openColumn, hopen])
  refine ⟨cols', ?_, heach⟩
  show ((withFiles schema cols).mapM fun x => Segment.openColumn x.1 x.2) >>= _ = _
  rw [hcols']
  rfl

namespace Table

/-- A segment holds the rows, in memory and in its files. -/
structure SegmentHolds (schema : Schema) (s : Segment) (rows : List Row) : Prop where
  count : s.info.rowCount = rows.length
  columns : Written schema s.columns rows
  file : s.deletedFile.getD [] = s.deleted

/-- The rows of a table. -/
structure Holds (t : Table) (segs : List (List Row)) (wb : List Row) (dur : Nat) : Prop where
  segments : Forall₂ (SegmentHolds t.schema) t.segments segs
  buffer : EachColumn t.schema t.wbColumns (Full wb dur)
  conforms : ∀ rows ∈ segs ++ [wb], ∀ row ∈ rows, Conforms t.schema row
  nonempty : t.schema ≠ []
  file : t.deletedFile.getD [] = t.wbDeleted

/-- What a directory needs so that the table can be opened again: a readable schema, a manifest of
the segments, and directories that only the segments own. -/
structure Files (t : Table) : Prop where
  schema : readSchema t.schemaFile = .ok t.schema
  manifest : t.manifestFile.getD [] = t.segments.map Segment.info
  settled : t.moving = none
  unused : t.unusedSegments = []
  ids : (t.segments.map fun s => s.info.id).Nodup
  fresh : ∀ s ∈ t.segments, s.info.id < t.nextSegmentId
  threshold : t.flushThreshold = flushThresholdDefault

/-- What a directory needs so that the table can be opened again, with directories that no segment
uses beside those of the segments. -/
structure Dirs (t : Table) : Prop where
  schema : readSchema t.schemaFile = .ok t.schema
  manifest : t.manifestFile.getD [] = t.segments.map Segment.info
  settled : t.moving = none
  ids : (t.segments.map fun s => s.info.id).Nodup
  fresh : ∀ s ∈ t.segments, s.info.id < t.nextSegmentId
  apart : ∀ x ∈ t.unusedSegments, ∀ s ∈ t.segments, x.1 ≠ s.info.id

variable {t : Table} {segs : List (List Row)} {wb : List Row} {dur : Nat} {ss : List Segment}

theorem Files.dirs (h : Files t) : Dirs t :=
  { h with apart := by rw [h.unused]; exact nofun }

/-- The ids of the segments are distinct and below the next one. -/
def Named (ss : List Segment) (next : Nat) : Prop :=
  (ss.map fun s => s.info.id).Nodup ∧ ∀ s ∈ ss, s.info.id < next

theorem Named.congr {ss' : List Segment} {n : Nat} (h : Named ss n)
    (hinfos : ss'.map Segment.info = ss.map Segment.info) : Named ss' n := by
  have hids := congrArg (map SegmentMeta.id) hinfos
  rw [map_map, map_map] at hids
  refine ⟨hids ▸ h.1, fun s hs => ?_⟩
  obtain ⟨s₀, hs₀, heq⟩ := mem_map.mp (hinfos ▸ mem_map_of_mem hs)
  exact heq ▸ h.2 s₀ hs₀

theorem Named.append {seg : Segment} {n : Nat} (h : Named ss n)
    (hid : seg.info.id = n) : Named (ss ++ [seg]) (n + 1) := by
  refine ⟨?_, forall_mem_concat (fun s hs => Nat.lt_succ_of_lt (h.2 s hs)) (by omega)⟩
  rw [map_append, nodup_append]
  refine ⟨h.1, by simp, fun a ha b hb => ?_⟩
  obtain ⟨s, hs, rfl⟩ := mem_map.mp ha
  obtain rfl : b = seg.info.id := by simpa using hb
  have := h.2 s hs
  omega

theorem Named.replace {seg : Segment} {n : Nat} (h : Named ss n)
    (hid : seg.info.id = n) (k : Nat) : Named (seg :: ss.drop k) (n + 1) := by
  have hperm : (seg :: ss.drop k).Perm (ss.drop k ++ [seg]) := @perm_append_comm _ [seg] _
  have hsub : (ss.drop k ++ [seg]).Sublist (ss ++ [seg]) :=
    (drop_sublist k ss).append_right [seg]
  obtain ⟨hids, hfresh⟩ := h.append hid
  exact ⟨(hperm.map _).nodup_iff.mpr (hids.sublist (hsub.map _)),
    fun s hs => hfresh s (hsub.subset (hperm.subset hs))⟩

section

variable (h : Holds t segs wb dur)
include h

theorem Holds.wbRowCount : t.wbRowCount = wb.length := by
  obtain ⟨c, _, hschema⟩ := exists_cons_of_ne_nil h.nonempty
  obtain ⟨_, hcol, _, d, hst, _⟩ := h.buffer.get (i := 0) (c := c) (by rw [hschema]; rfl)
  unfold Table.wbRowCount
  cases hcols : t.wbColumns with
  | nil =>
    rw [hcols] at hcol
    cases hcol
  | cons col₀ cols =>
    rw [hcols] at hcol
    cases hcol
    show ColumnFile.rowCount _ = _
    rw [hst.rowCount, length_columnOf]

theorem Holds.mono {dur' : Nat} (hle : dur' ≤ dur) : Holds t segs wb dur' :=
  { h with buffer := h.buffer.imp fun _ _ ⟨d, hst, hd⟩ => ⟨d, hst, Nat.le_trans hle hd⟩ }

theorem Holds.rowCount : t.rowCount = t.wbBaseRowId + wb.length := by
  rw [Table.rowCount, h.wbRowCount]

end

theorem SegmentHolds.full {schema : Schema} {s : Segment} {rows : List Row}
    (h : SegmentHolds schema s rows) : EachColumn schema s.columns (Full rows rows.length) :=
  h.columns.imp fun i _ hst => ⟨_, hst, by rw [length_columnOf]⟩

theorem Holds.parts (h : Holds t segs wb dur) :
    Forall₂ (PartHolds t.schema) (TableScan.parts t) (segs ++ [wb]) := by
  have hwidth : ∀ rows ∈ segs ++ [wb], ∀ row ∈ rows, row.length = t.schema.length :=
    fun rows hrows row hrow => (h.conforms rows hrows row hrow).length
  have hzero : ∀ {rows} {d} {cols},
      EachColumn t.schema cols (Full rows d) → EachColumn t.schema cols (Full rows 0) :=
    fun hcols => hcols.imp fun _ _ ⟨d, hst, _⟩ => ⟨d, hst, Nat.zero_le _⟩
  refine rel_append ?_ (.cons ?_ .nil)
  · refine forall₂_map_left_iff.2 (forall₂_imp_mem h.segments fun s _ rows hrows hs => ?_)
    exact ⟨hs.count, hzero hs.full, hwidth rows (mem_append_left _ hrows)⟩
  · exact ⟨h.wbRowCount, hzero h.buffer, hwidth wb (by simp)⟩

/-- The live rows of the table with their ids. -/
def liveRows (t : Table) (segs : List (List Row)) (wb : List Row) : List (Nat × Row) :=
  (zipWith partRows (TableScan.parts t) (segs ++ [wb])).flatten

/-- **A scan returns the live rows**, in the order of their parts. -/
theorem Holds.scan (h : Holds t segs wb dur) : TableScan.scan t = .ok (liveRows t segs wb) := by
  have hread : Forall₂ (fun p r => readPart p = .ok r) (TableScan.parts t)
      (zipWith partRows (TableScan.parts t) (segs ++ [wb])) := by
    exact forall₂_zipWith h.parts fun p _ rows _ hp => readPart_eq hp
  unfold TableScan.scan
  rw [mapM_of_forall₂ hread]
  rfl

end Table
end NyxDb
