import NyxDb.Catalog.Recovery

/-!
# The invariant of a catalog

`EntryOk recs e segs wb` relates an open table to its files and to the records `recs` of the log:
the files have the rows up to the checkpoint, and the records after the checkpoint lead from these
to the rows and deletions in memory.  Every statement keeps it for the records it writes, and a
table that satisfies it is found as it was after a crash (`EntryOk.recovered`,
`EntryOk.reindexed`).
-/

namespace NyxDb

open List Table Segment

namespace Table

/-- The segments fill the ids from 0 up to the write buffer. -/
def InSync (t : Table) : Prop :=
  Contiguous 0 (t.segments.map info) ∧
    t.wbBaseRowId = totalRows (t.segments.map info)

instance (t : Table) : Decidable (InSync t) :=
  inferInstanceAs (Decidable (_ ∧ _))

theorem InSync.sameIds {t t' : Table} (h : InSync t) (hids : SameIds t t') : InSync t' := by
  unfold InSync
  rw [hids.infos, hids.base]
  exact h

theorem Contiguous.append {infos : List SegmentMeta} {start : Nat} (h : Contiguous start infos)
    {m : SegmentMeta} (hm : m.baseRowId = start + totalRows infos) :
    Contiguous start (infos ++ [m]) := by
  induction infos generalizing start with
  | nil => exact ⟨hm, trivial⟩
  | cons m' ms ih =>
    refine ⟨h.1, ih h.2 ?_⟩
    rw [hm]
    simp [totalRows, Nat.add_assoc]

/-- A seal keeps the ids without a gap. -/
theorem InSync.appended {t t' : Table} {seg : Segment} {id n : Nat} (h : InSync t)
    (hsegs : t'.segments = t.segments ++ [seg]) (hinfo : seg.info = ⟨id, t.wbBaseRowId, n⟩)
    (hbase : t'.wbBaseRowId = t.wbBaseRowId + n) :
    InSync t' := by
  have htotal : totalRows (t'.segments.map info) =
      totalRows (t.segments.map info) + n := by
    rw [hsegs, map_append, map_singleton, hinfo]
    simp [totalRows]
  refine ⟨?_, ?_⟩
  · rw [hsegs, map_append]
    refine h.1.append ?_
    rw [hinfo, Nat.zero_add]
    exact h.2
  · rw [hbase, htotal, h.2]

theorem InSync.sealedTo {t t' : Table} {wb : List Row} (h : InSync t) (hs : SealedTo t wb t') :
    InSync t' := by
  obtain ⟨_, hsegs, _, hinfo⟩ := hs.segments
  exact h.appended hsegs hinfo hs.base

/-- A record that adds no rows and deletes none. -/
theorem redoOk_of_noRows (t : Table) {wb : List Row} {kept : Nat} {pend : List WalBody}
    (hkept : wb.length ≤ kept) (hpend : ∀ body ∈ pend, body.isRows = false) :
    RedoOk t wb kept pend := by
  have hnone : ∀ body : WalBody, body.isRows = false → body.newRows = [] ∧ body.markedIds = [] := by
    intro body hbody
    cases body <;> first | exact ⟨rfl, rfl⟩ | cases hbody
  constructor
  · have hadded : addedRows pend = [] := by
      unfold addedRows
      rw [flatMap_eq_nil_iff]
      exact fun body hbody => (hnone body (hpend body hbody)).1
    rw [hadded, append_nil, take_of_length_le hkept]
  · intro k l hmark
    revert hmark
    generalize kept = n
    induction pend generalizing n with
    | nil => exact fun h => by cases h
    | cons body pend ih =>
      rw [replayMarks, (hnone body (hpend body mem_cons_self)).2, Bool.or_eq_true]
      rintro (hhit | hrest)
      · rw [hitsAt_nil] at hhit
        cases hhit
      · exact ih (fun b hb => hpend b (mem_cons_of_mem _ hb)) _ hrest

end Table

namespace Catalog

open TableEntry
open Table (Holds Files OnFiles Reopened Replayed SameIds SameBits RedoOk InSync addedRows
  flushThresholdDefault totalRows)

/-! ## Checkpoints and records -/

section Records

variable {recs : List WalRecord} {r : WalRecord} {e : TableEntry}

theorem checkpointOf_append : checkpointOf (recs ++ [r]) e =
    raise e.name (checkpointOf recs e) r := by
  unfold checkpointOf
  rw [foldl_append]
  rfl

theorem raise_of_ne {name : Bytes} (h : canonicalize r.tableName ≠ name) (cp : LsnCheckpoint) :
    raise name cp r = cp := by
  unfold raise
  split
  · rw [if_neg fun hc => h hc.1]
  · rfl

theorem raise_of_isRows (h : r.body.isRows = true) (name : Bytes) (cp : LsnCheckpoint) :
    raise name cp r = cp := by
  unfold raise
  split
  · next hbody =>
    rw [hbody] at h
    cases h
  · rfl

/-- The checkpoint is the one on disk or the last seal in the log. -/
theorem checkpointOf_lsn_le {n : Nat} (hdisk : (readLsn e.lsn).lsn ≤ n)
    (hrecs : ∀ r ∈ recs, r.byteOffset ≤ n) : (checkpointOf recs e).lsn ≤ n := by
  unfold checkpointOf
  generalize readLsn e.lsn = cp at hdisk
  induction recs generalizing cp with
  | nil => exact hdisk
  | cons r recs ih =>
    refine ih (fun r' hr' => hrecs r' (mem_cons_of_mem _ hr')) _ ?_
    unfold raise
    split
    · split
      · exact hrecs r mem_cons_self
      · exact hdisk
    · exact hdisk

/-- A checkpoint on disk that is newer than the log is the checkpoint. -/
theorem checkpointOf_of_newer (h : ∀ r ∈ recs, r.byteOffset ≤ (readLsn e.lsn).lsn) :
    checkpointOf recs e = readLsn e.lsn := by
  unfold checkpointOf
  generalize readLsn e.lsn = cp at h
  induction recs with
  | nil => rfl
  | cons r recs ih =>
    have hone : raise e.name cp r = cp := by
      have hle := h r mem_cons_self
      unfold raise
      split
      · rw [if_neg fun hc => Nat.not_lt.mpr hle hc.2]
      · rfl
    rw [foldl_cons, hone]
    exact ih fun r' hr' => h r' (mem_cons_of_mem _ hr')

theorem recordsFrom_eq_nil {lsn : Nat} (h : ∀ r ∈ recs, r.byteOffset < lsn) (name : Bytes) :
    recordsFrom recs name lsn = [] := by
  unfold recordsFrom
  rw [map_eq_nil_iff, filter_eq_nil_iff]
  intro r hr
  have := h r hr
  simp only [Bool.and_eq_true, decide_eq_true_eq, not_and]
  omega

end Records

/-! ## One table -/

/-- An open table with its files and indexes; `dur` rows of the write buffer are on disk. -/
structure EntryOpen (e : TableEntry) (segs : List (List Row)) (wb : List Row) (dur : Nat) :
    Prop where
  canonical : canonicalize e.name = e.name
  short : e.name.length < 2 ^ 16
  columns : e.table.schema.length < 2 ^ 16
  files : Files e.table
  stray : e.strayIndexes = []
  indexes : ∀ x ∈ e.indexes, IndexFits e.table.schema x.2 ∧ ∃ es, BTreeIndex.Holds x.2 es
  holds : Holds e.table segs wb dur
  sync : InSync e.table
  room : wb.length < flushThresholdDefault

/-- An open table, its files and the records of the log agree. -/
structure EntryOk (recs : List WalRecord) (e : TableEntry) (segs : List (List Row))
    (wb : List Row) : Prop extends EntryOpen e segs wb (keptOf recs e) where
  kept : keptOf recs e ≤ wb.length
  redo : RedoOk e.table wb (keptOf recs e) (pendingOf recs e)

section Entry

variable {recs : List WalRecord} {e y : TableEntry} {segs : List (List Row)} {wb : List Row}

/-- Another table of the same name, schema and rows, with its indexes. -/
theorem EntryOpen.sameTable {dur dur' : Nat} (h : EntryOpen e segs wb dur)
    (hname : y.name = e.name) (hschema : y.table.schema = e.table.schema) (hfiles : Files y.table)
    (hstray : y.strayIndexes = [])
    (hidx : ∀ x ∈ y.indexes, IndexFits e.table.schema x.2 ∧ ∃ es, BTreeIndex.Holds x.2 es)
    (hholds : Holds y.table segs wb dur') (hsync : InSync y.table) :
    EntryOpen y segs wb dur' where
  canonical := by rw [hname, h.canonical]
  short := hname ▸ h.short
  columns := hschema ▸ h.columns
  files := hfiles
  stray := hstray
  indexes := by rwa [hschema]
  holds := hholds
  sync := hsync
  room := h.room

section

variable (h : EntryOk recs e segs wb)
include h

theorem EntryOk.ready (hkeys : ∀ x ∈ e.indexes, x.2.disk.header.dirty = true →
      KeysOnDisk e.table.dir x.2.disk.colIndices) : Ready recs e segs wb where
  canonical := h.canonical
  files := h.files
  stray := h.stray
  rows := h.holds.onFiles
  indexes x hx := by
    obtain ⟨hfit, _, hes⟩ := h.indexes x hx
    exact hfit.diskOk hes
  keys := hkeys
  conforms body hbody row hrow := by
    refine h.holds.conforms_buffer row ?_
    rw [h.redo.rows]
    exact mem_append_right _ (mem_flatMap.mpr ⟨body, hbody, hrow⟩)
  room := by
    have hlen := congrArg length h.redo.rows
    rw [length_append, length_take_of_le h.kept] at hlen
    have := h.room
    omega

theorem EntryOk.rebuilt {t : Table} {idx : List (Bytes × IndexFile)}
    (hidx : Forall₂ (fun x z => z.1 = x.1 ∧ Rebuilt t (IndexFile.openFile x.2.disk) z.2)
      e.indexes idx) :
    ∀ z ∈ idx, IndexFits e.table.schema z.2 ∧ ∃ es, BTreeIndex.Holds z.2 es := by
  intro z hz
  obtain ⟨x, hx, -, hr⟩ := forall₂_mem_right hidx hz
  obtain ⟨hfit, es, hes⟩ := h.indexes x hx
  have hdisk := hfit.diskOk hes
  refine ⟨hdisk.fits.sameKeys hr.keys, ?_⟩
  cases hdirty : (IndexFile.openFile x.2.disk).dirty with
  | true =>
    obtain ⟨es', _, hes'⟩ := hr.built hdirty
    exact ⟨_, hes'⟩
  | false =>
    obtain ⟨es', hes'⟩ := hdisk.clean hdirty
    exact ⟨es', hr.same hdirty ▸ hes'⟩

/-- The table that is opened has the ids and the deletions of the one in memory. -/
theorem EntryOk.opened {t₀ : Table} (hr : Reopened e.table segs wb (keptOf recs e) t₀) :
    SameIds e.table t₀ ∧ SameBits e.table t₀ := by
  refine ⟨⟨hr.infos, hr.base.trans h.sync.2.symm⟩, sameBits_of_bitmaps ?_⟩
  rw [hr.bits, h.holds.fileBitmaps]

/-- **Recovery gives back the table**, which is then in order for an empty log. -/
theorem EntryOk.recovered {t₀ : Table}
    (hr : Recovered recs e segs wb t₀ y) (hsize : y.table.rowCount < 2 ^ 64) :
    EntryOk [] y segs wb := by
  obtain ⟨hids, hbits⟩ := h.opened hr.opened
  obtain ⟨-, hids', -⟩ := h.redo.replayed h.kept hids hbits hr.table
  have hdur : Holds y.table segs wb wb.length := by
    have := hr.durable
    rwa [← h.redo.rows] at this
  have hschema : y.table.schema = e.table.schema := hr.table.schema.trans hr.opened.schema
  have hsync : InSync y.table := h.sync.sameIds hids'
  have hcp : checkpointOf [] y = ⟨0, y.table.rowCount⟩ := by
    show readLsn y.lsn = _
    rw [hr.lsn]
    exact readLsn_lsnBytes (show 0 < 2 ^ 64 by decide) hsize
  have hkept : keptOf [] y = wb.length := by
    unfold keptOf
    rw [hcp, hdur.rowCount, hsync.2, Nat.add_sub_cancel_left]
  refine ⟨h.sameTable hr.name hschema hr.table.files hr.stray (h.rebuilt hr.indexes) ?_ hsync,
    Nat.le_of_eq hkept, ?_⟩
  · rw [hkept]
    exact hdur
  · exact redoOk_nil y.table (Nat.le_of_eq hkept.symm)

end

/-- Without a log everything is on disk. -/
theorem EntryOk.reindexed (h : EntryOk [] e segs wb) (hr : Reindexed [] e segs wb y) :
    EntryOk [] y segs wb := by
  obtain ⟨hids, -⟩ := h.opened hr.opened
  have hall : wb.length ≤ keptOf [] e := by
    have hrows := congrArg length h.redo.rows
    rw [show addedRows (pendingOf [] e) = [] from rfl, append_nil, length_take] at hrows
    omega
  have ho := hr.opened
  have hdur := h.holds.onFiles.holds_of_complete hall ho.toRowsFound ho.file
  have hkept : keptOf [] y = keptOf [] e := by
    unfold keptOf
    rw [hr.opened.infos, checkpointOf_congr hr.name hr.lsn]
  refine ⟨h.sameTable hr.name hr.opened.schema hr.opened.files hr.stray (h.rebuilt hr.indexes) ?_
    (h.sync.sameIds hids), ?_, ?_⟩
  · rw [hkept]
    exact hdur.mono h.kept
  · rw [hkept]
    exact h.kept
  · rw [hkept]
    exact redoOk_nil y.table hall

end Entry

/-! ## What a record does to the invariant -/

section Step

variable {recs : List WalRecord} {r : WalRecord} {e : TableEntry} {segs : List (List Row)}
  {wb : List Row} (h : EntryOk recs e segs wb)
include h

theorem EntryOk.other (hne : canonicalize r.tableName ≠ e.name) :
    EntryOk (recs ++ [r]) e segs wb := by
  have hcp : checkpointOf (recs ++ [r]) e = checkpointOf recs e := by
    rw [checkpointOf_append, raise_of_ne hne]
  have hkept : keptOf (recs ++ [r]) e = keptOf recs e := by
    unfold keptOf
    rw [hcp]
  have hpend : pendingOf (recs ++ [r]) e = pendingOf recs e := by
    unfold pendingOf
    rw [hcp, recordsFrom_append, recordsFrom_singleton_of_ne hne, append_nil]
  exact { h with
    holds := hkept ▸ h.holds
    kept := hkept ▸ h.kept
    redo := by rw [hkept, hpend]; exact h.redo }

theorem EntryOk.withIndexes {idx : List (Bytes × IndexFile)}
    (hidx : ∀ x ∈ idx, IndexFits e.table.schema x.2 ∧ ∃ es, BTreeIndex.Holds x.2 es) :
    EntryOk recs { e with indexes := idx } segs wb :=
  { h with indexes := hidx }

theorem EntryOk.checkpoint_append (hname : r.tableName = e.name)
    (hrows : r.body.isRows = true) (hoff : (checkpointOf recs e).lsn ≤ r.byteOffset) :
    checkpointOf (recs ++ [r]) e = checkpointOf recs e ∧
      pendingOf (recs ++ [r]) e = pendingOf recs e ++ [r.body] := by
  have hcp : checkpointOf (recs ++ [r]) e = checkpointOf recs e := by
    rw [checkpointOf_append, raise_of_isRows hrows]
  refine ⟨hcp, ?_⟩
  unfold pendingOf
  rw [hcp, recordsFrom_append, recordsFrom_singleton (by rw [hname, h.canonical]) hoff]

end Step

end Catalog
end NyxDb
