import NyxDb.Catalog.Acceptance
import NyxDb.Maintenance.Rewrite

/-!
# What leaves the contents alone

Seals, merges, checkpoints and new indexes change the files of a table and not its rows, nor the
ids of the rows: the ledger stays as it is.  A vacuum drops the dead rows from the ledger, which
gives the later rows other ids; it leaves the ledger alone only if there are none.
-/

namespace NyxDb

open List Segment

namespace Table

variable {t : Table} {segs : List (List Row)} {wb : List Row} {dur : Nat}

/-! ## Merges -/

theorem Contiguous.drop {infos : List SegmentMeta} {start : Nat} (h : Contiguous start infos)
    (n : Nat) : Contiguous (start + totalRows (infos.take n)) (infos.drop n) := by
  induction infos generalizing start n with
  | nil =>
    rw [drop_nil]
    trivial
  | cons m ms ih =>
    cases n with
    | zero => exact h
    | succ n =>
      have hrest := ih h.2 n
      rwa [Nat.add_assoc] at hrest

variable {seg : Segment}

/-- The merged segment has the place of the segments it was made of. -/
theorem InSync.replacedBy (hsync : InSync t) (h : Holds t segs wb dur) {n : Nat}
    (hbase : (t.segments.map info).head?.map SegmentMeta.baseRowId =
      some seg.info.baseRowId) (hcount : seg.info.rowCount = (segs.take n).flatten.length) :
    InSync (t.replacedBy n seg) := by
  have hstart : seg.info.baseRowId = 0 := by
    cases hinfos : t.segments.map info with
    | nil =>
      rw [hinfos] at hbase
      cases hbase
    | cons m ms =>
      have hfirst := hsync.1
      rw [hinfos] at hbase hfirst
      have hm : m.baseRowId = seg.info.baseRowId := Option.some.inj hbase
      rw [← hm]
      exact hfirst.1
  have hsplit : totalRows (t.segments.map info) =
      seg.info.rowCount + totalRows ((t.segments.drop n).map info) := by
    rw [hcount, ← h.totalRows_take n, map_drop]
    simp only [totalRows]
    rw [← sum_append, ← map_append, take_append_drop]
  constructor
  · show Contiguous 0 ((seg :: t.segments.drop n).map info)
    rw [map_cons, map_drop]
    refine ⟨hstart, ?_⟩
    rw [hcount, ← h.totalRows_take n]
    exact hsync.1.drop n
  · show t.wbBaseRowId = totalRows ((seg :: t.segments.drop n).map info)
    rw [hsync.2, hsplit]
    rfl

theorem Files.replacedBy (h : Files t) (hid : seg.info.id = t.nextSegmentId) (n : Nat) :
    Files (t.replacedBy n seg) := by
  have hdirs := h.dirs.replacedBy hid n
  refine { hdirs with unused := ?_, threshold := h.threshold }
  show (t.unusedSegments.filter _).filter _ = []
  rw [h.unused]
  rfl

theorem Files.nextIdTaken (h : Files t) : t.nextIdTaken = false := by
  unfold Table.nextIdTaken
  rw [h.unused]
  rfl

/-- **A merge keeps the ledger.** -/
theorem Holds.ledger_merged (h : Holds t segs wb dur) (hsync : InSync t) {k : Nat} (hk : 2 ≤ k)
    (hlen : k ≤ t.segments.length) :
    ∃ seg sd base, exec (Table.mergeSegments k) t = exec (Proc.attempt
        (swapSegments (k / 2) sd base (segs.take (k / 2)).flatten.length)) t ∧
      Segment.openDir sd t.schema
        ⟨t.nextSegmentId, base, (segs.take (k / 2)).flatten.length⟩ = .ok seg ∧
      Holds (t.replacedBy (k / 2) seg) ((segs.take (k / 2)).flatten :: segs.drop (k / 2)) wb dur ∧
      InSync (t.replacedBy (k / 2) seg) ∧
      ledger (t.replacedBy (k / 2) seg) ((segs.take (k / 2)).flatten :: segs.drop (k / 2)) wb =
        ledger t segs wb := by
  obtain ⟨sd, base, count, seg, -, hrun, hr, hdel, rfl, hbase⟩ := h.mergeSegments hk hlen
  have hhalf : (t.segments.take (k / 2)).length = k / 2 := length_take_of_le (by omega)
  have hmerged := (h.snapshot (n := k / 2) (by omega)).ledger_merged
  have hcount := hr.holds.count
  obtain ⟨hinfo, -, hbits⟩ := openDir_eq_ok hr.opens
  rw [hhalf] at hmerged
  rw [hinfo] at hcount
  obtain rfl : count = _ := hcount
  refine ⟨seg, sd, base, by rw [exec, hrun]; rfl, hr.opens, h.replacedBy hr.holds hr.conforms _,
    ?_, ?_⟩
  · refine hsync.replacedBy h ?_ hr.holds.count
    rw [hinfo]
    exact hbase
  · rw [ledger_replacedBy h hr.le, hbits, hdel, deletedFile_merge, hmerged]
    exact (ledger_split t segs wb hr.le).symm

theorem Holds.exec_mergeSegments (h : Holds t segs wb dur) (hfiles : Files t) (hsync : InSync t)
    {k : Nat} (hk : 2 ≤ k) (hlen : k ≤ t.segments.length) :
    ∃ seg, exec (Table.mergeSegments k) t = (.ok (), t.replacedBy (k / 2) seg) ∧
      Holds (t.replacedBy (k / 2) seg) ((segs.take (k / 2)).flatten :: segs.drop (k / 2)) wb dur ∧
      Files (t.replacedBy (k / 2) seg) ∧ InSync (t.replacedBy (k / 2) seg) ∧
      ledger (t.replacedBy (k / 2) seg) ((segs.take (k / 2)).flatten :: segs.drop (k / 2)) wb =
        ledger t segs wb := by
  obtain ⟨seg, _, _, hrun, hopen, hheld, hsync', hledger⟩ := h.ledger_merged hsync hk hlen
  have hid := congrArg SegmentMeta.id (openDir_eq_ok hopen).1
  refine ⟨seg, ?_, hheld, hfiles.replacedBy hid _, hsync', hledger⟩
  rw [hrun, exec_attempt, exec_swapSegments, hfiles.nextIdTaken, if_neg Bool.false_ne_true, hopen]

/-! ## Vacuums -/

/-- No row of the table is deleted. -/
def NoneDead (t : Table) : Prop :=
  match t.deadRowStats with
  | .ok stats => stats.deadRows = 0
  | .error _ => False

instance (t : Table) : Decidable (NoneDead t) := by
  unfold NoneDead
  split
  · infer_instance
  · infer_instance

theorem NoneDead.counts (h : NoneDead t) :
    ∃ dead wbDead, t.segments.mapM (fun s => deadCount s.deleted s.info.rowCount) = .ok dead ∧
      deadCount t.wbDeleted t.wbRowCount = .ok wbDead ∧ dead.sum = 0 ∧ wbDead = 0 := by
  unfold NoneDead deadRowStats at h
  cases hdead : t.segments.mapM fun s => deadCount s.deleted s.info.rowCount with
  | error err =>
    rw [hdead] at h
    exact h.elim
  | ok dead =>
    cases hwb : deadCount t.wbDeleted t.wbRowCount with
    | error err =>
      rw [hdead, hwb] at h
      exact h.elim
    | ok wbDead =>
      rw [hdead, hwb] at h
      have hsum : dead.sum + wbDead = 0 := h
      exact ⟨dead, wbDead, rfl, rfl, by omega, by omega⟩

theorem exec_vacuumTable_none {dead : List Nat}
    (hdead : t.segments.mapM (fun s => deadCount s.deleted s.info.rowCount) = .ok dead)
    (hsum : dead.sum = 0) : exec vacuumTable t = (.ok 0, t) := by
  unfold vacuumTable
  rw [exec_get_bind]
  split
  · rfl
  · rw [hdead, exec_bind_ok (exec_ofExcept _ t), if_pos hsum]
    rfl

/-- After a seal there is nothing to reclaim either. -/
theorem NoneDead.exec_vacuumTable (h : NoneDead t) (hheld : Holds t segs wb dur) {t' : Table}
    (ht' : t' = t ∨ SealedTo t wb t') : exec vacuumTable t' = (.ok 0, t') := by
  obtain ⟨dead, wbDead, hdead, hwb, hsum, hzero⟩ := h.counts
  rcases ht' with rfl | hsealed
  · exact exec_vacuumTable_none hdead hsum
  · obtain ⟨seg, hsegs, hdel, hinfo⟩ := hsealed.segments
    have hlast : deadCount seg.deleted seg.info.rowCount = .ok wbDead := by
      rw [hdel, hinfo, ← hheld.wbRowCount]
      exact hwb
    have hall : t'.segments.mapM (fun s => deadCount s.deleted s.info.rowCount) =
        .ok (dead ++ [wbDead]) := by
      rw [hsegs, mapM_append, hdead]
      rw [mapM_cons, hlast]
      rfl
    refine exec_vacuumTable_none hall ?_
    rw [sum_append, hsum, hzero]
    rfl

/-- The merge worker does not find so many dead rows that it starts a vacuum. -/
def NoVacuumDue (t : Table) : Prop :=
  match t.deadRowStats with
  | .ok stats => ¬(0 < stats.totalRows ∧ stats.totalRows < 5 * stats.deadRows)
  | .error _ => False

instance (t : Table) : Decidable (NoVacuumDue t) := by
  unfold NoVacuumDue
  split
  · infer_instance
  · infer_instance

theorem NoVacuumDue.exec_maybeMergeTable (h : NoVacuumDue t) (k : Nat) :
    exec (maybeMergeTable k) t = exec (mergeSegments k) t := by
  unfold NoVacuumDue at h
  unfold maybeMergeTable
  rw [exec_get_bind]
  cases hs : t.deadRowStats with
  | error err =>
    rw [hs] at h
    exact h.elim
  | ok stats =>
    rw [hs] at h
    rw [exec_bind_ok (exec_ofExcept _ t), if_neg h]

end Table

namespace Catalog

open TableEntry
open Table (SealedTo)

/-! ## One table -/

section Entry

variable {e : TableEntry} {segs : List (List Row)} {wb : List Row} {dur : Nat} {g : Ledger Row}

/-- **A merge.** -/
theorem EntryHeld.exec_mergeSegments (h : EntryHeld e segs wb dur g) {k : Nat} (hk : 2 ≤ k) :
    ∃ t', exec (Table.mergeSegments k) e.table = (.ok (), t') ∧
      t'.schema = e.table.schema ∧ Held { e with table := t' } g := by
  by_cases hlen : e.table.segments.length < k
  · refine ⟨e.table, ?_, rfl, segs, wb, dur, h⟩
    unfold Table.mergeSegments
    rw [exec_get_bind, if_pos hlen]
    rfl
  · obtain ⟨_, hexec, hheld, hfiles, hsync, hledger⟩ :=
      h.holds.exec_mergeSegments h.files h.sync hk (Nat.not_lt.mp hlen)
    refine ⟨_, hexec, rfl, _, wb, dur, h.withTable rfl hfiles hheld hsync h.room ?_
      (hledger.trans h.ledger)⟩
    -- the write buffer is not touched
    intro l hl
    have hbits := h.fresh l hl
    rw [Table.rowBit_buffer] at hbits ⊢
    exact hbits

/-- **A seal.** -/
theorem EntryHeld.exec_flushWriteBuffer (h : EntryHeld e segs wb dur g) :
    ∃ t', exec Table.flushWriteBuffer e.table = (.ok (), t') ∧
      Held { e with table := t' } g ∧ (t' = e.table ∨ SealedTo e.table wb t') := by
  by_cases hne : wb = []
  · subst hne
    exact ⟨e.table, h.holds.exec_seal_nil, ⟨segs, [], dur, h⟩, Or.inl rfl⟩
  · obtain ⟨t', hexec, hheld, hsealed⟩ := h.holds.exec_flushWriteBuffer h.files hne
    refine ⟨t', hexec, ⟨_, [], 0, h.withTable hsealed.schema hsealed.files hheld
      (h.sync.sealedTo hsealed) (by decide) (Table.fresh_of_deleted_nil hsealed.deleted [])
      ((hsealed.ledger h.holds).trans h.ledger)⟩, Or.inr hsealed⟩

/-- The index file that `CREATE INDEX` starts with. -/
structure NewIndex (schema : Schema) (cols : List UInt8) (unique : Bool) (f : IndexFile) :
    Prop where
  specs : ∃ specs, indexSpecs schema cols = .ok specs ∧ IndexFile.create specs cols unique = .ok f
  few : cols.length < 256

variable {cols : List UInt8} {f : IndexFile} {unique : Bool}

theorem NewIndex.fits {schema : Schema} (h : NewIndex schema cols unique f) :
    IndexFits schema f ∧ BTreeIndex.Holds f [] ∧ f.isUnique = unique := by
  obtain ⟨_, hspecs, hcreate⟩ := h.specs
  obtain ⟨hholds, -, -, -⟩ := BTreeIndex.create_eq_ok hcreate
  have hlen := (indexSpecs_columns hspecs).length_eq
  have hfew := h.few
  unfold IndexFile.create at hcreate
  split_ifs at hcreate
  cases hcreate
  exact ⟨⟨hspecs, hlen ▸ hfew, rfl, rfl, rfl⟩, hholds, rfl⟩

/-- **A new index** is filled with the rows of the table. -/
theorem EntryHeld.exec_buildIndex (h : EntryHeld e segs wb dur g)
    (hf : NewIndex e.table.schema cols unique f) (name : Bytes) :
    ∃ f', exec (buildIndex name f) e = (.ok (), { e with indexes := e.indexes ++ [(name, f')] })
      ∧ EntryHeld { e with indexes := e.indexes ++ [(name, f')] } segs wb dur g ∧
        f'.isUnique = unique := by
  obtain ⟨hfits, hempty, huniq⟩ := hf.fits
  obtain ⟨f₁, hbuild, hf₁, hsame⟩ :=
    exec_bulkBuildIndex hempty (indexEntries_eq h.holds hfits)
  have hkeys := hsame.trans (sameKeys_flushed f₁)
  refine ⟨flushedIndex f₁, ?_, h.withIndexes (forall_mem_concat h.indexes
    ⟨hfits.sameKeys hkeys, _, holds_flushed hf₁⟩), ?_⟩
  · have hinner : exec (do
        bulkBuildIndex e.table
        IndexFile.flush
        Proc.get) f = (.ok (flushedIndex f₁), flushedIndex f₁) := by
      rw [exec_bind_ok hbuild, exec_bind_ok (exec_flush_index f₁), exec_get]
    unfold buildIndex
    rw [exec_get_bind, exec_bind_ok (exec_fileOp _ e), exec_bind, exec_zoom, hinner]
    rfl
  · rw [hkeys.isUnique, huniq]

/-- **`add_index`** fails and changes nothing, or builds the index. -/
theorem addIndex_cases {cat : Catalog} {db : Contents} (h : Tracks Held cat db)
    (table index : Bytes) (hfew : cols.length < 256) :
    (∃ err, exec (addIndex table index cols unique) cat = (.error err, cat)) ∨
    ∃ e f' g, cat.find (canonicalize table) = some e ∧ db (canonicalize table) = some g ∧
      exec (addIndex table index cols unique) cat =
        (.ok (), put { e with indexes := e.indexes ++ [(index, f')] } cat) ∧
      Held { e with indexes := e.indexes ++ [(index, f')] } g ∧ f'.isUnique = unique := by
  unfold addIndex
  rw [exec_get_bind]
  cases hfind : cat.find (canonicalize table) with
  | none => exact Or.inl ⟨_, rfl⟩
  | some e =>
    dsimp only
    split
    · exact Or.inl ⟨_, rfl⟩
    · cases hspecs : indexSpecs e.table.schema cols with
      | error err => exact Or.inl ⟨_, rfl⟩
      | ok specs =>
        rw [exec_bind_ok (exec_ofExcept _ cat)]
        cases hcreate : IndexFile.create specs cols unique with
        | error err => exact Or.inl ⟨_, rfl⟩
        | ok f =>
          obtain ⟨g, hg, segs, wb, dur, hheld⟩ := h.find hfind
          obtain ⟨f', hbuild, hheld', hunique⟩ :=
            hheld.exec_buildIndex ⟨⟨specs, hspecs, hcreate⟩, hfew⟩ index
          have hok : exec (mapError (Error.within (ascii "add_index: "))
              (ofExcept (.ok f))) cat = (.ok f, cat) := rfl
          rw [exec_bind_ok hok, hheld.stray, any_nil, if_neg Bool.false_ne_true,
            exec_onEntry hfind, hbuild]
          exact Or.inr ⟨e, f', g, rfl, hg, rfl, ⟨segs, wb, dur, hheld'⟩, hunique⟩

end Entry

end Catalog
end NyxDb
