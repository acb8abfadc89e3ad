import NyxDb.Catalog.Entries

/-!
# What `load` does

`Ready` says what the files of a table must be like so that `load` succeeds on it: every column has
the rows that truncation keeps, and the records to be replayed fit into the write buffer.  Then
`load` leaves the table with the kept rows and those of the records (`Recovered`).
-/

namespace NyxDb.Catalog

open TableEntry List IndexFile
open Table (Holds Files OnFiles Reopened Replayed addedRows flushThresholdDefault totalRows)

/-! ## The records of a table -/

/-- The records that replay applies to a table with the checkpoint `lsn`. -/
def recordsFrom (recs : List WalRecord) (name : Bytes) (lsn : Nat) : List WalBody :=
  (recs.filter fun r => decide (canonicalize r.tableName = name) && decide (lsn ≤ r.byteOffset)).map
    WalRecord.body

/-- The records that replay applies to a table. -/
def pendingOf (recs : List WalRecord) (e : TableEntry) : List WalBody :=
  recordsFrom recs e.name (checkpointOf recs e).lsn

/-- The rows of the write buffer that truncation keeps. -/
def keptOf (recs : List WalRecord) (e : TableEntry) : Nat :=
  (checkpointOf recs e).rows - totalRows (e.table.segments.map Segment.info)

theorem checkpointOf_congr {e e' : TableEntry} (hname : e'.name = e.name) (hlsn : e'.lsn = e.lsn)
    (recs : List WalRecord) : checkpointOf recs e' = checkpointOf recs e := by
  unfold checkpointOf
  rw [hname, hlsn]

/-! ## Tables that can be loaded -/

/-- What the files of a table must be like for `load`. -/
structure Ready (recs : List WalRecord) (e : TableEntry) (segs : List (List Row)) (wb : List Row) :
    Prop where
  canonical : canonicalize e.name = e.name
  files : Files e.table
  stray : e.strayIndexes = []
  rows : OnFiles e.table segs wb (keptOf recs e)
  indexes : ∀ x ∈ e.indexes, IndexDiskOk e.table.schema x.2.disk
  keys : ∀ x ∈ e.indexes, x.2.disk.header.dirty = true → KeysOnDisk e.table.dir x.2.disk.colIndices
  conforms : ∀ body ∈ pendingOf recs e, ∀ row ∈ body.newRows, Conforms e.table.schema row
  room : keptOf recs e + (addedRows (pendingOf recs e)).length < flushThresholdDefault

/-- What opening the directory of an entry finds. -/
structure Opened (e : TableEntry) (segs : List (List Row)) (wb : List Row) (dur : Nat)
    (e' : TableEntry) : Prop where
  name : e'.name = e.name
  lsn : e'.lsn = e.lsn
  stray : e'.strayIndexes = []
  indexes : e'.indexes = e.indexes.map fun x => (x.1, openFile x.2.disk)
  table : Reopened e.table segs wb dur e'.table

/-- The index after the rebuild of those that were not written properly. -/
structure Rebuilt (t : Table) (f f' : IndexFile) : Prop where
  keys : SameKeys f f'
  clean : f'.dirty = false
  same : f.dirty = false → f' = f
  built : f.dirty = true → ∃ es, indexEntries f t = .ok es ∧
    BTreeIndex.Holds f' (sortEntries f.cols es)

section Entry

variable {recs : List WalRecord} {e e' : TableEntry} {segs : List (List Row)} {wb : List Row}

theorem Ready.openEntry (h : Ready recs e segs wb) :
    ∃ e', openEntry e.name e.image = .ok e' ∧ Opened e segs wb (keptOf recs e) e' := by
  obtain ⟨_, hopen, hr⟩ := h.rows.openDir h.files
  unfold Catalog.openEntry
  have hdir : e.image.dir = e.table.dir := rfl
  rw [hdir, hopen, h.canonical]
  refine ⟨_, rfl, rfl, rfl, rfl, ?_, hr⟩
  show (e.indexes.map (fun x => (x.1, x.2.disk)) ++ e.strayIndexes).map _ = _
  rw [h.stray, append_nil, map_map]
  rfl

/-- The dirty indexes of an opened table can be rebuilt. -/
theorem Ready.exec_rebuildDirty (h : Ready recs e segs wb)
    (ho : Opened e segs wb (keptOf recs e) e') :
    ∃ idx, exec rebuildDirty e' = (.ok (), { e' with indexes := idx }) ∧
      Forall₂ (fun x y => y.1 = x.1 ∧ Rebuilt e'.table (openFile x.2.disk) y.2)
        e.indexes idx := by
  have hone : ∀ x ∈ e'.indexes, ∃ f, exec (do
      let f ← Proc.get
      if f.dirty then rebuildIndex e'.table else pure ()) x.2 = (.ok (), f) ∧
        Rebuilt e'.table x.2 f := by
    intro x hx
    rw [ho.indexes] at hx
    obtain ⟨x₀, hx₀, rfl⟩ := mem_map.mp hx
    have hdisk := h.indexes x₀ hx₀
    rw [exec_get_bind]
    cases hdirty : (openFile x₀.2.disk).dirty with
    | false =>
      refine ⟨_, rfl, SameKeys.refl _, hdirty, fun _ => rfl, fun hd => ?_⟩
      rw [hdirty] at hd
      cases hd
    | true =>
      obtain ⟨es, hes⟩ := indexEntries_reopened h.rows h.files ho.table hdisk.fits
        (hdisk.fits.diskColIndices ▸ h.keys x₀ hx₀ hdirty)
      obtain ⟨f', hexec, hf', hsame, hclean⟩ :=
        exec_rebuildIndex (f := openFile x₀.2.disk) hdisk.pages hdisk.capacity hes
      refine ⟨f', hexec, hsame, hclean, fun hd => ?_, fun _ => ⟨es, hes, hf'⟩⟩
      rw [hdirty] at hd
      cases hd
  obtain ⟨idx, hexec, hidx⟩ := exec_onIndexes hone
  refine ⟨idx, ?_, ?_⟩
  · exact hexec
  · rw [ho.indexes, forall₂_map_left_iff] at hidx
    exact hidx

end Entry

/-! ## Replay -/

/-- An entry after replay of the records `pre`; `t₀` is the table as it was opened. -/
structure Redone (recs pre : List WalRecord) (e : TableEntry) (segs : List (List Row))
    (wb : List Row) (t₀ : Table) (y : TableEntry) : Prop where
  name : y.name = e.name
  lsn : y.lsn = e.lsn
  stray : y.strayIndexes = []
  opened : Reopened e.table segs wb (keptOf recs e) t₀
  indexes : Forall₂ (fun x z => z.1 = x.1 ∧ Rebuilt t₀ (openFile x.2.disk) z.2)
    e.indexes y.indexes
  table : Replayed t₀ segs (wb.take (keptOf recs e))
    (recordsFrom pre e.name (checkpointOf recs e).lsn) y.table

theorem recordsFrom_append (xs ys : List WalRecord) (name : Bytes) (lsn : Nat) :
    recordsFrom (xs ++ ys) name lsn = recordsFrom xs name lsn ++ recordsFrom ys name lsn := by
  simp [recordsFrom]

variable {r : WalRecord} {segs : List (List Row)} {wb : List Row}

theorem recordsFrom_singleton_of_ne {name : Bytes}
    (h : canonicalize r.tableName ≠ name) (lsn : Nat) : recordsFrom [r] name lsn = [] := by
  simp [recordsFrom, h]

theorem recordsFrom_singleton {name : Bytes} {lsn : Nat}
    (hname : canonicalize r.tableName = name) (hlsn : lsn ≤ r.byteOffset) :
    recordsFrom [r] name lsn = [r.body] := by
  simp [recordsFrom, hname, hlsn]

section Replay

variable {recs pre post : List WalRecord} {r : WalRecord} {e y : TableEntry}
  {segs : List (List Row)} {wb : List Row} {t₀ : Table} (h : Redone recs pre e segs wb t₀ y)
include h

theorem Redone.skip (hnone : recordsFrom [r] e.name (checkpointOf recs e).lsn = []) :
    Redone recs (pre ++ [r]) e segs wb t₀ y := by
  refine { h with table := ?_ }
  rw [recordsFrom_append, hnone, append_nil]
  exact h.table

theorem Redone.step (hready : Ready recs e segs wb)
    (hsplit : recs = pre ++ r :: post) (hname : canonicalize r.tableName = e.name)
    (hlsn : (checkpointOf recs e).lsn ≤ r.byteOffset) :
    ∃ t', exec (replayRows r.tableName r.body) y.table = (.ok (), t') ∧
      Redone recs (pre ++ [r]) e segs wb t₀ { y with table := t' } := by
  have hpend : pendingOf recs e = recordsFrom (pre ++ [r]) e.name (checkpointOf recs e).lsn ++
      recordsFrom post e.name (checkpointOf recs e).lsn := by
    rw [← recordsFrom_append, append_assoc, singleton_append, ← hsplit]
    rfl
  have hbody : recordsFrom (pre ++ [r]) e.name (checkpointOf recs e).lsn =
      recordsFrom pre e.name (checkpointOf recs e).lsn ++ [r.body] := by
    rw [recordsFrom_append, recordsFrom_singleton hname hlsn]
  have hmem : r.body ∈ pendingOf recs e := by
    rw [hpend, hbody]
    simp
  have hroom := hready.room
  rw [hpend, hbody, Table.addedRows_append, length_append] at hroom
  have hconf : ∀ row ∈ r.body.newRows, Conforms t₀.schema row := by
    rw [h.opened.schema]
    exact hready.conforms r.body hmem
  obtain ⟨t', hexec, h'⟩ := h.table.step hconf (by
      have := length_take_le (keptOf recs e) wb
      omega) r.tableName
  refine ⟨t', hexec, { h with table := ?_ }⟩
  rw [hbody]
  exact h'

end Replay

section Loop

variable {recs : List WalRecord} {segsOf : TableEntry → List (List Row)}
  {wbOf : TableEntry → List Row} {tables : List TableEntry}

/-- The entries after replay of the records `pre`. -/
def AllRedone (recs pre : List WalRecord) (segsOf : TableEntry → List (List Row))
    (wbOf : TableEntry → List Row) (tables ys : List TableEntry) : Prop :=
  Forall₂ (fun e y => Ready recs e (segsOf e) (wbOf e) ∧
    ∃ t₀, Redone recs pre e (segsOf e) (wbOf e) t₀ y) tables ys

/-- A record that is not replayed on any of the tables. -/
theorem AllRedone.skip {pre : List WalRecord} {ys : List TableEntry}
    (h : AllRedone recs pre segsOf wbOf tables ys)
    (hskip : ∀ e, ∀ y ∈ ys, y.name = e.name → y.lsn = e.lsn →
      recordsFrom [r] e.name (checkpointOf recs e).lsn = []) :
    AllRedone recs (pre ++ [r]) segsOf wbOf tables ys := by
  exact forall₂_imp_mem h fun e _ y hy ⟨hready, t₀, hredone⟩ =>
    ⟨hready, t₀, hredone.skip (hskip e y hy hredone.name hredone.lsn)⟩

/-- **One record of the log.** -/
theorem AllRedone.step {pre post : List WalRecord} {cat : Catalog}
    (h : AllRedone recs pre segsOf wbOf tables cat.tables)
    (hnames : (tables.map name).Nodup) (hsplit : recs = pre ++ r :: post) :
    ∃ ys, exec (replay recs r) cat = (.ok (), { cat with tables := ys }) ∧
      AllRedone recs (pre ++ [r]) segsOf wbOf tables ys := by
  unfold replay
  rw [exec_get_bind]
  cases hfind : cat.find (canonicalize r.tableName) with
  | none =>
    refine ⟨cat.tables, rfl, h.skip fun e y hy hye _ => recordsFrom_singleton_of_ne ?_ _⟩
    exact fun heq => find_eq_none.mp hfind y hy (hye.trans heq.symm)
  | some y =>
    obtain ⟨hy, hname⟩ := find_some hfind
    have hnames' : (cat.tables.map name).Nodup :=
      forall₂_map_eq h (fun _ _ ⟨_, _, hy⟩ => hy.name) ▸ hnames
    by_cases hlt : r.byteOffset < (checkpointOf recs y).lsn
    · -- the record is on disk already
      simp only [if_pos hlt]
      refine ⟨cat.tables, rfl, h.skip fun e y' hy' hye hlsn => ?_⟩
      by_cases heq : canonicalize r.tableName = e.name
      · obtain rfl : y' = y := inj_on_of_nodup_map hnames' hy' hy
          (hye.trans (heq.symm.trans hname.symm))
        rw [checkpointOf_congr hye hlsn] at hlt
        simp [recordsFrom, Nat.not_le.mpr hlt]
      · exact recordsFrom_singleton_of_ne heq _
    · simp only [if_neg hlt]
      rw [hname, exec_onEntry hfind, exec_onTable]
      obtain ⟨e, _, hready, t₀, hredone⟩ : ∃ e ∈ tables, Ready recs e (segsOf e) (wbOf e) ∧
          ∃ t₀, Redone recs pre e (segsOf e) (wbOf e) t₀ y := forall₂_mem_right h hy
      rw [checkpointOf_congr hredone.name hredone.lsn] at hlt
      obtain ⟨_, hexec, _⟩ := hredone.step hready hsplit (hname.symm.trans hredone.name)
        (Nat.le_of_not_lt hlt)
      rw [hexec]
      refine ⟨_, rfl, forall₂_put h hnames' hy rfl ?_ ?_⟩
      · rintro e' ⟨hready', t₁, hredone'⟩
        have hlt' : ¬ r.byteOffset < (checkpointOf recs e').lsn := by
          rw [← checkpointOf_congr hredone'.name hredone'.lsn,
            checkpointOf_congr hredone.name hredone.lsn]
          exact hlt
        obtain ⟨_, hexec', hstep⟩ := hredone'.step hready' hsplit
          (hname.symm.trans hredone'.name) (Nat.le_of_not_lt hlt')
        rw [hexec] at hexec'
        cases hexec'
        exact ⟨hready', t₁, hstep⟩
      · rintro e' y' hy' hne ⟨hready', t₁, hredone'⟩
        refine ⟨hready', t₁, hredone'.skip (recordsFrom_singleton_of_ne ?_ _)⟩
        intro heq
        exact hne (hredone'.name.trans (heq.symm.trans hname.symm))

/-- **The whole log.** -/
theorem AllRedone.run {post : List WalRecord} : ∀ cat {pre},
    AllRedone recs pre segsOf wbOf tables cat.tables → (tables.map name).Nodup →
    recs = pre ++ post →
    ∃ ys, exec (forEach post (replay recs)) cat = (.ok (), { cat with tables := ys }) ∧
      AllRedone recs recs segsOf wbOf tables ys := by
  induction post with
  | nil =>
    intro cat pre h _ hsplit
    rw [append_nil] at hsplit
    refine ⟨cat.tables, rfl, ?_⟩
    rwa [← hsplit] at h
  | cons r post ih =>
    intro cat pre h hnames hsplit
    obtain ⟨ys, hexec, hstep⟩ := h.step hnames hsplit
    obtain ⟨zs, hexec', hrun⟩ := ih { cat with tables := ys } hstep hnames (by
      rw [hsplit, append_assoc, singleton_append])
    refine ⟨zs, ?_, hrun⟩
    rw [exec_forEach_cons, exec_bind_ok hexec, hexec']

end Loop

/-! ## The end of recovery -/

/-- An entry after recovery. -/
structure Recovered (recs : List WalRecord) (e : TableEntry) (segs : List (List Row))
    (wb : List Row) (t₀ : Table) (y : TableEntry) : Prop where
  name : y.name = e.name
  lsn : y.lsn = some (lsnBytes ⟨0, y.table.rowCount⟩)
  stray : y.strayIndexes = []
  opened : Reopened e.table segs wb (keptOf recs e) t₀
  indexes : Forall₂ (fun x z => z.1 = x.1 ∧ Rebuilt t₀ (openFile x.2.disk) z.2)
    e.indexes y.indexes
  table : Replayed t₀ segs (wb.take (keptOf recs e)) (pendingOf recs e) y.table
  durable : Holds y.table segs (wb.take (keptOf recs e) ++ addedRows (pendingOf recs e))
    (wb.take (keptOf recs e) ++ addedRows (pendingOf recs e)).length

theorem Redone.exec_finishEntry {recs : List WalRecord} {e y : TableEntry}
    {t₀ : Table} (h : Redone recs recs e segs wb t₀ y) :
    ∃ y', exec finishEntry y = (.ok (), y') ∧ Recovered recs e segs wb t₀ y' := by
  obtain ⟨cols, hexec, hheld, _⟩ := h.table.holds.exec_flush
  refine ⟨{ y with
      table := y.table.withColumns cols
      lsn := some (lsnBytes ⟨0, (y.table.withColumns cols).rowCount⟩) }, ?_,
    h.name, rfl, h.stray, h.opened, h.indexes, ?_, hheld⟩
  · unfold finishEntry
    have hflush : exec (mapError (.within (ascii "catalog: post-recovery flush '" ++
        y.name ++ ascii "': ")) (onTable Table.flush)) y =
        (.ok (), { y with table := y.table.withColumns cols }) := by
      rw [exec_mapError, exec_onTable, hexec]
      rfl
    rw [exec_get_bind, exec_bind_ok hflush, exec_get_bind, exec_writeLsn]
  · refine ⟨hheld.mono (by simp), h.table.files.withColumns cols, h.table.schema,
      ⟨h.table.ids.infos, h.table.ids.base⟩, fun k l => ?_⟩
    rw [Table.sameBits_withColumns _ cols k l]
    exact h.table.bits k l

/-! ## Loading -/

section Load

variable {recs : List WalRecord} {segsOf : TableEntry → List (List Row)}
  {wbOf : TableEntry → List Row} {cat : Catalog}

theorem image_schema {e : TableEntry} (h : Files e.table) : e.image.dir.schema.isSome = true := by
  show e.table.dir.schema.isSome = true
  rw [Table.dir_of_settled h.settled]
  rfl

/-- The tables of a directory, which have a `schema.bin`, are opened one after the other. -/
theorem openTables_of {α : Type} {d : CatalogDir} {xs : List α} {img : α → Bytes × TableImage}
    {unopened : List (Bytes × TableImage)} {S : α → TableEntry → Prop}
    (htables : d.tables = xs.map img ++ unopened)
    (hsome : ∀ x ∈ xs, (img x).2.dir.schema.isSome = true)
    (hnone : ∀ x ∈ unopened, x.2.dir.schema = none)
    (hopen : ∀ x ∈ xs, ∃ y, openEntry (img x).1 (img x).2 = .ok y ∧ S x y) :
    ∃ ys, openTables d = .ok ⟨ys, unopened, d.wal, none⟩ ∧ Forall₂ S xs ys := by
  have hpresent : d.tables.filter (fun x => x.2.dir.schema.isSome) = xs.map img := by
    rw [htables, filter_append, filter_eq_self.mpr, filter_eq_nil_iff.mpr, append_nil]
    · intro x hx
      simp [hnone x hx]
    · intro x hx
      obtain ⟨y, hy, rfl⟩ := mem_map.mp hx
      exact hsome y hy
  have habsent : d.tables.filter (fun x => x.2.dir.schema.isNone) = unopened := by
    rw [htables, filter_append, filter_eq_nil_iff.mpr, filter_eq_self.mpr, nil_append]
    · intro x hx
      simp [hnone x hx]
    · intro x hx
      obtain ⟨y, hy, rfl⟩ := mem_map.mp hx
      rw [Option.isNone_eq_false_iff.mpr (hsome y hy)]
      exact Bool.false_ne_true
  obtain ⟨ys, hys, hall⟩ := mapM_ok_rel hopen
  refine ⟨ys, ?_, hall⟩
  unfold openTables
  rw [hpresent, habsent, mapM_map]
  exact congrArg (· >>= _) hys

theorem openTables_ready (hready : ∀ e ∈ cat.tables, Ready recs e (segsOf e) (wbOf e))
    (hunopened : ∀ x ∈ cat.unopened, x.2.dir.schema = none) :
    ∃ ys, openTables cat.dir = .ok ⟨ys, cat.unopened, cat.wal, none⟩ ∧
      Forall₂ (fun e y => Ready recs e (segsOf e) (wbOf e) ∧
        Opened e (segsOf e) (wbOf e) (keptOf recs e) y) cat.tables ys := by
  refine openTables_of (d := cat.dir) rfl (fun e he => image_schema (hready e he).files) hunopened
    fun e he => ?_
  obtain ⟨y, hy, hopened⟩ := (hready e he).openEntry
  exact ⟨y, hy, hready e he, hopened⟩

/-- An opened entry with its indexes rebuilt. -/
structure Reindexed (recs : List WalRecord) (e : TableEntry) (segs : List (List Row))
    (wb : List Row) (y : TableEntry) : Prop where
  name : y.name = e.name
  lsn : y.lsn = e.lsn
  stray : y.strayIndexes = []
  opened : Reopened e.table segs wb (keptOf recs e) y.table
  indexes : Forall₂
    (fun x z => z.1 = x.1 ∧ Rebuilt y.table (openFile x.2.disk) z.2) e.indexes y.indexes

theorem Ready.reindexed {e y : TableEntry}
    (h : Ready recs e segs wb) (ho : Opened e segs wb (keptOf recs e) y) :
    ∃ z, exec rebuildDirty y = (.ok (), z) ∧ Reindexed recs e segs wb z := by
  obtain ⟨_, hexec, hidx⟩ := h.exec_rebuildDirty ho
  exact ⟨_, hexec, { ho with opened := ho.table, indexes := hidx }⟩

theorem Reindexed.exec_truncateEntry {e y : TableEntry}
    (h : Reindexed recs e segs wb y) (hready : Ready recs e segs wb) :
    ∃ z, exec (truncateEntry recs) y = (.ok (), z) ∧ Redone recs [] e segs wb y.table z := by
  have hkept : (checkpointOf recs e).rows - y.table.wbBaseRowId = keptOf recs e := by
    rw [h.opened.base]
    rfl
  obtain ⟨cols, hexec, hheld⟩ := h.opened.exec_truncate hready.rows
    (checkpointOf recs e).rows (Nat.le_of_eq hkept)
  rw [hkept] at hheld
  refine ⟨{ y with table := y.table.withColumns cols }, ?_, h.name, h.lsn, h.stray, h.opened,
    h.indexes, ?_, h.opened.files.withColumns cols, rfl, ⟨rfl, rfl⟩, fun k l => ?_⟩
  · unfold truncateEntry
    rw [exec_get_bind, exec_mapError, checkpointOf_congr h.name h.lsn,
      exec_onTable, hexec]
    rfl
  · show Holds _ _ (_ ++ addedRows []) _
    rw [show addedRows [] = [] from rfl, append_nil, length_take]
    exact hheld.mono (Nat.min_le_left _ _)
  · show _ = (_ || false)
    rw [Bool.or_false]
    exact Table.sameBits_withColumns _ cols k l

/-- Tables that exist are not created again. -/
theorem exec_replayCreates (cat' : Catalog) (post : List WalRecord)
    (hknown : ∀ r ∈ post, ∀ schema, r.body = .createTable schema →
      ∃ e ∈ cat'.tables, e.name = canonicalize r.tableName) :
    exec (forEach post replayCreate) cat' = (.ok (), cat') := by
  induction post with
  | nil => rfl
  | cons r post ih =>
    have hone : exec (replayCreate r) cat' = (.ok (), cat') := by
      unfold replayCreate
      rw [exec_get_bind]
      cases hbody : r.body with
      | createTable schema =>
        obtain ⟨e, he, hname⟩ := hknown r mem_cons_self schema hbody
        cases hfind : cat'.find (canonicalize r.tableName) with
        | none => exact absurd hname (find_eq_none.mp hfind e he)
        | some y => rfl
      | _ => rfl
    rw [exec_forEach_cons, exec_bind_ok hone]
    exact ih fun r' hr' => hknown r' (mem_cons_of_mem _ hr')

/-- **Loading with a log.** -/
theorem load_wal {bs : Bytes} (hwal : cat.wal = some bs) (hread : readAll bs = .ok recs)
    (hready : ∀ e ∈ cat.tables, Ready recs e (segsOf e) (wbOf e))
    (hnames : (cat.tables.map name).Nodup)
    (hunopened : ∀ x ∈ cat.unopened, x.2.dir.schema = none)
    (hknown : ∀ r ∈ recs, ∀ schema, r.body = .createTable schema →
      ∃ e ∈ cat.tables, e.name = canonicalize r.tableName) :
    ∃ ys, load cat.dir = .ok ⟨ys, cat.unopened, none, none⟩ ∧
      Forall₂ (fun e y => ∃ t₀, Recovered recs e (segsOf e) (wbOf e) t₀ y) cat.tables ys := by
  obtain ⟨ys, hopen, hys⟩ := openTables_ready hready hunopened
  rw [hwal] at hopen
  -- The steps of recovery, each with what it makes of the entries.
  obtain ⟨zs, hrebuild, hzs⟩ := exec_onEntries ⟨ys, cat.unopened, some bs, none⟩ hys
    (S := fun e z => Ready recs e (segsOf e) (wbOf e) ∧ Reindexed recs e (segsOf e) (wbOf e) z)
    fun e y ⟨he, ho⟩ => by
      obtain ⟨z, hexec, hz⟩ := he.reindexed ho
      exact ⟨z, hexec, he, hz⟩
  have hcreates := exec_replayCreates ⟨zs, cat.unopened, some bs, none⟩ recs
    fun r hr schema hbody => by
      obtain ⟨e, he, hname⟩ := hknown r hr schema hbody
      obtain ⟨z, hz, -, hindexed⟩ := forall₂_mem_left hzs he
      exact ⟨z, hz, hindexed.name.trans hname⟩
  obtain ⟨us, htruncate, hus⟩ := exec_onEntries ⟨zs, cat.unopened, some bs, none⟩
    (c := truncateEntry recs) hzs
    (S := fun e u => Ready recs e (segsOf e) (wbOf e) ∧
      ∃ t₀, Redone recs [] e (segsOf e) (wbOf e) t₀ u)
    fun e z ⟨he, hz⟩ => by
      obtain ⟨u, hexec, hu⟩ := hz.exec_truncateEntry he
      exact ⟨u, hexec, he, _, hu⟩
  obtain ⟨vs, hreplay, hvs⟩ := AllRedone.run ⟨us, cat.unopened, some bs, none⟩ hus hnames rfl
  obtain ⟨ws, hfinish, hws⟩ := exec_onEntries ⟨vs, cat.unopened, some bs, none⟩
    (c := finishEntry) hvs (S := fun e w => ∃ t₀, Recovered recs e (segsOf e) (wbOf e) t₀ w)
    fun e v ⟨_, t₀, hv⟩ => by
      obtain ⟨w, hexec, hw⟩ := hv.exec_finishEntry
      exact ⟨w, hexec, t₀, hw⟩
  refine ⟨ws, ?_, hws⟩
  have hlog : exec (mapError (.within (ascii "catalog: wal read: "))
      (ofExcept (readAll bs))) (⟨zs, cat.unopened, some bs, none⟩ : Catalog) =
      (.ok recs, ⟨zs, cat.unopened, some bs, none⟩) := by
    rw [hread]
    rfl
  have hrec : exec recover ⟨ys, cat.unopened, some bs, none⟩ =
      (.ok (), ⟨ws, cat.unopened, none, none⟩) := by
    unfold recover
    rw [exec_bind_ok hrebuild, exec_get_bind]
    rw [exec_bind_ok hlog, exec_bind_ok hcreates, exec_bind_ok htruncate,
      exec_bind_ok hreplay, exec_bind_ok hfinish]
    rfl
  unfold load
  rw [hopen]
  simp [hrec]

/-- **Loading without a log.** -/
theorem load_noWal (hwal : cat.wal = none)
    (hready : ∀ e ∈ cat.tables, Ready recs e (segsOf e) (wbOf e))
    (hunopened : ∀ x ∈ cat.unopened, x.2.dir.schema = none) :
    ∃ ys, load cat.dir = .ok ⟨ys, cat.unopened, none, none⟩ ∧
      Forall₂ (fun e y => Reindexed recs e (segsOf e) (wbOf e) y) cat.tables ys := by
  obtain ⟨ys, hopen, hys⟩ := openTables_ready hready hunopened
  rw [hwal] at hopen
  obtain ⟨zs, hrebuild, hzs⟩ := exec_onEntries ⟨ys, cat.unopened, none, none⟩ hys
    (S := fun e z => Reindexed recs e (segsOf e) (wbOf e) z) fun e y ⟨he, ho⟩ => he.reindexed ho
  refine ⟨zs, ?_, hzs⟩
  unfold load
  rw [hopen]
  have hrec : exec recover ⟨ys, cat.unopened, none, none⟩ =
      (.ok (), ⟨zs, cat.unopened, none, none⟩) := by
    unfold recover
    rw [exec_bind_ok hrebuild]
    rfl
  simp [hrec]

end Load

end NyxDb.Catalog
