import NyxDb.Maintenance.EvenColumns

/-!
# Counting dead rows

The counts of dead rows and the copy of a vacuum read bit `r` of a bitmap for every row `r`.  A
deletion makes the bitmap as long as the rows that are there; rows that come later are not covered
until the next deletion.  As long as no rows are inserted beyond the bits, every read finds its
byte and the dead rows are those that `isRowDeleted` reports.
-/

namespace NyxDb.Table

open List TableScan ColumnFile Table.Action

/-- The ids of the rows of a part. -/
def partIds (p : Part) : List Nat :=
  (range p.localRowCount).map (p.baseRowId + ·)

/-- Every read of a bit finds its byte, and the counts of a vacuum and of the statistics are the
numbers of ids that `isRowDeleted` reports. -/
structure DeadCounted (t : Table) : Prop where
  reads : ∀ p ∈ parts t, ∀ r < p.localRowCount, ∃ b, bitAt p.deleted r = .ok b
  vacuum : ∃ dead, t.segments.mapM (fun s => deadCount s.deleted s.info.rowCount) = .ok dead ∧
    dead.sum = (t.segments.flatMap fun s =>
      partIds (segmentPart s)).countP t.isRowDeleted
  stats : ∃ stats, t.deadRowStats = .ok stats ∧
    stats.deadRows = ((parts t).flatMap partIds).countP t.isRowDeleted

/-- The bitmap has a bit for each of `n` rows, or none at all. -/
def Covers (bm : Bytes) (n : Nat) : Prop :=
  bm = [] ∨ n ≤ 8 * bm.length

theorem Covers.mono {bm : Bytes} {m n : Nat} (h : Covers bm n) (hm : m ≤ n) : Covers bm m :=
  h.imp_right (Nat.le_trans hm)

/-- A segment with a bit for each row, in memory and in its file. -/
def SegmentBits (s : Segment) : Prop :=
  Covers s.deleted s.info.rowCount ∧ s.deletedFile.getD [] = s.deleted

/-- The first column, which counts the rows of the write buffer, is sound and covered. -/
def BufferBits (cols : List ColumnFile) (bm : Bytes) : Prop :=
  ∀ c ∈ cols.head?, ∃ vals dur, Stores c vals dur ∧ Covers bm vals.length

/-- What keeps the reads in bounds. -/
structure BitsOk (t : Table) : Prop where
  ids : IdsOk t
  named : Named t.segments t.nextSegmentId
  segments : ∀ s ∈ t.segments, SegmentBits s
  buffer : BufferBits t.wbColumns t.wbDeleted
  file : t.deletedFile.getD [] = t.wbDeleted
  sized : ∀ c ∈ t.schema.head?, 0 < c.spec.capacity

variable {t : Table} {cols : List ColumnFile} {bm : Bytes} {rows : List Row} {schema : Schema}

theorem wbRowCount_of_head {c : ColumnFile} (hc : c ∈ t.wbColumns.head?) :
    t.wbRowCount = c.rowCount := by
  obtain ⟨cols, hcols⟩ := head?_eq_some_iff.mp hc
  rw [wbRowCount, hcols]

theorem BufferBits.covers (h : BufferBits t.wbColumns bm) : Covers bm t.wbRowCount := by
  cases hcols : t.wbColumns with
  | nil => exact .inr (by simp [wbRowCount, hcols])
  | cons c cols =>
    have hc : c ∈ t.wbColumns.head? := by rw [hcols]; rfl
    obtain ⟨_, _, hst, _⟩ := h c hc
    rwa [wbRowCount_of_head hc, hst.rowCount]

theorem BitsOk.covered (h : BitsOk t) : ∀ p ∈ parts t, Covers p.deleted p.localRowCount := by
  intro p hp
  simp only [parts, mem_append, mem_map, mem_singleton] at hp
  rcases hp with ⟨s, hs, rfl⟩ | rfl
  · exact (h.segments s hs).1
  · exact h.buffer.covers

theorem BitsOk.deadCounted (h : BitsOk t) : DeadCounted t := by
  have hdead : ∀ p ∈ parts t, deadCount p.deleted p.localRowCount =
      .ok ((partIds p).countP t.isRowDeleted) := by
    intro p hp
    obtain ⟨k, hk⟩ := getElem?_of_mem hp
    rw [deadCount_of_covered (h.covered p hp), partIds, countP_map]
    refine congrArg _ (countP_congr fun l hl => ?_)
    rw [Function.comp, (h.ids.ranged.resolves hk (mem_range.mp hl)).isRowDeleted, rowBit, hk]
  have hsegs : (t.segments.mapM fun s => deadCount s.deleted s.info.rowCount) =
      .ok (t.segments.map fun s =>
        (partIds (segmentPart s)).countP t.isRowDeleted) :=
    mapM_eq_ok fun s hs => hdead _ (mem_append_left _ (mem_map_of_mem hs))
  have hwb := hdead (bufferPart t) (by simp [parts])
  refine ⟨fun p hp r hr => ⟨_, bitAt_of_covered (h.covered p hp) hr⟩, ⟨_, hsegs, ?_⟩, ?_⟩
  · rw [countP_flatMap]
    rfl
  · change deadCount t.wbDeleted t.wbRowCount = _ at hwb
    rw [deadRowStats, hsegs, hwb]
    refine ⟨_, rfl, ?_⟩
    rw [parts, flatMap_append, countP_append, flatMap_map,
      countP_flatMap, flatMap_singleton]
    rfl

/-! ## The write buffer -/

theorem BitsOk.withColumns (h : BitsOk t) (hcols : BufferBits cols t.wbDeleted) :
    BitsOk (t.withColumns cols) :=
  { h with ids := { h.ids with }, buffer := hcols }

/-- An operation on the columns, as far as the first column goes. -/
theorem BufferBits.each (h : BufferBits cols bm) {ops : List (Op ColumnFile Unit)}
    (hops : ∀ op ∈ ops.head?, ∀ c ∈ cols.head?, ∀ vals dur, Stores c vals dur →
      Covers bm vals.length → ∃ vals' dur', Stores (exec op c).2 vals' dur' ∧
        Covers bm vals'.length) : BufferBits (exec (Proc.each ops) cols).2 bm := by
  cases ops with
  | nil => exact h
  | cons op ops =>
    cases cols with
    | nil => exact h
    | cons c cols =>
      obtain ⟨vals, dur, hst, hcov⟩ := h c rfl
      have hone := hops op rfl c rfl vals dur hst hcov
      intro c' hc'
      rcases hrun : exec op c with ⟨e | ⟨⟩, _⟩
      · rw [Proc.exec_each_cons_error hrun] at hc'
        cases hc'
        rwa [hrun] at hone
      · rw [Proc.exec_each_cons_ok hrun] at hc'
        cases hc'
        rwa [hrun] at hone

theorem BitsOk.flush (h : BitsOk t) : BitsOk (exec flush t).2 := by
  refine h.withColumns (h.buffer.each fun op hop c _ vals dur hst hcov => ?_)
  rw [head?_map] at hop
  obtain ⟨_, _, rfl⟩ := Option.map_eq_some_iff.mp hop
  obtain ⟨_, hexec, -, hst', -⟩ := exec_flush hst
  rw [hexec]
  exact ⟨vals, vals, hst', hcov⟩

/-- The bits of the write buffer reach beyond the rows that are to be appended. -/
def RoomFor (t : Table) (rows : List Row) : Prop :=
  t.wbDeleted = [] ∨ t.wbRowCount + rows.length ≤ 8 * t.wbDeleted.length

theorem BitsOk.appended (h : BitsOk t) (hroom : RoomFor t rows) :
    BitsOk (exec (onColumns (zipWith appendColumn t.schema
      (columnBatches t.wbColumns.length rows))) t).2 := by
  refine h.withColumns (h.buffer.each fun op hop c hc vals dur hst _ => ?_)
  rw [RoomFor, wbRowCount_of_head hc, hst.rowCount] at hroom
  rw [head?_eq_getElem?, getElem?_zipWith] at hop
  -- the first column takes some of the values it is given
  obtain ⟨spec, batch, rfl, hlen⟩ :
      ∃ spec batch, op = appendColumn spec batch ∧ batch.length = rows.length := by
    split at hop
    · next spec batch _ hb =>
      rw [columnBatches, getElem?_map] at hb
      obtain ⟨i, -, rfl⟩ := Option.map_eq_some_iff.mp hb
      exact ⟨spec, _, (Option.some.inj hop).symm, length_map _⟩
    · cases hop
  obtain ⟨c', dur', -, -, hst', hexec⟩ := exec_appendBulk batch hst
  have hrun : (exec (appendColumn spec batch) c).2 = c' := by
    unfold appendColumn
    rw [exec_mapError]
    split at hexec
    · rw [hexec]
    · obtain ⟨e, hexec⟩ := hexec
      rw [hexec]
  have hle := (takeWhile_sublist (l := batch) (accepts c.spec)).length_le
  rw [hrun]
  refine ⟨_, dur', hst', Covers.mono hroom ?_⟩
  rw [length_append]
  omega

theorem length_setAll (bm : Bytes) (is : List Nat) : (Bitmap.setAll bm is).length = bm.length := by
  induction is generalizing bm with
  | nil => rfl
  | cons i is ih => exact (ih _).trans (Bitmap.length_set bm i)

theorem covers_markBits (bm : Bytes) (n : Nat) (ids : List Nat) : Covers (markBits bm n ids) n := by
  right
  rw [markBits, length_setAll, Bitmap.length_resize, Bitmap.bytesFor]
  omega

theorem BitsOk.marked (h : BitsOk t) (gids : List Nat) : BitsOk (t.marked gids) := by
  have hids := maintains_of_preserves (preserves_markDeleted gids) t h.ids
  obtain ⟨bm, file, hmarked, hbits⟩ := marked_eq t gids
  rw [exec_markDeleted, hmarked] at hids
  rw [hmarked]
  have hwb : BufferBits t.wbColumns bm ∧ file.getD [] = bm := by
    rcases hbits with ⟨rfl, rfl⟩ | ⟨-, rfl, rfl⟩
    · exact ⟨h.buffer, h.file⟩
    · refine ⟨fun c hc => ?_, deletedFileOf_getD _⟩
      obtain ⟨vals, dur, hst, -⟩ := h.buffer c hc
      rw [wbRowCount_of_head hc, hst.rowCount]
      exact ⟨vals, dur, hst, covers_markBits _ _ _⟩
  refine ⟨hids, h.named.congr (map_info_marked _ _), fun s hs => ?_, hwb.1, hwb.2, h.sized⟩
  obtain ⟨i, hi, rfl⟩ := mem_mapIdx.mp hs
  unfold Segment.marked
  split
  · exact h.segments _ (getElem_mem hi)
  · exact ⟨covers_markBits _ _ _, deletedFileOf_getD _⟩

/-! ## Segments -/

theorem segmentBits_of_openDir {sd : SegmentDir} {info : SegmentMeta}
    {seg : Segment} (hseg : Segment.openDir sd schema info = .ok seg)
    (hcov : Covers (sd.deleted.getD []) info.rowCount) : SegmentBits seg := by
  obtain ⟨hinfo, hfile, hbits⟩ := openDir_eq_ok hseg
  rw [SegmentBits, hinfo, hfile, hbits]
  exact ⟨hcov, rfl⟩

/-- The first of the new columns is empty. -/
theorem bufferBits_of_create
    (hsized : ∀ c ∈ schema.head?, 0 < c.spec.capacity) (hcols : createColumns schema = .ok cols) :
    BufferBits cols [] := by
  intro c hc
  cases forall₂_of_mapM hcols with
  | nil => cases hc
  | cons hcreate _ =>
    cases hc
    obtain ⟨_, hc', -, hst⟩ := create_stores (hsized _ rfl)
    cases hcreate.symm.trans hc'
    exact ⟨_, _, hst, .inl rfl⟩

/-- No bitmap was left where the next segment is put. -/
def NoStaleBitmap (t : Table) : Prop :=
  (t.unusedSegments.lookup t.nextSegmentId).bind SegmentDir.deleted = none

theorem BitsOk.flushWriteBuffer (h : BitsOk t) (hstale : NoStaleBitmap t) :
    BitsOk (exec flushWriteBuffer t).2 := by
  have hflush := h.flush
  have hstale' : NoStaleBitmap (exec Table.flush t).2 := hstale
  obtain hrun | hrun | ⟨t₁, seg, cols, rfl, hseg, hcols, hrun⟩ := flushWriteBuffer_cases t
  · rw [hrun]
    exact h
  · rw [hrun]
    exact hflush
  · rw [hrun]
    generalize (exec Table.flush t).2 = t₁ at hflush hstale' hseg hcols ⊢
    have hinfo := (openDir_eq_ok hseg).1
    refine ⟨hflush.ids.sealed hinfo, hflush.named.append (congrArg SegmentMeta.id hinfo),
      fun s hs => ?_, bufferBits_of_create hflush.sized hcols, rfl, hflush.sized⟩
    rcases mem_append.mp hs with hs | hs
    · exact hflush.segments s hs
    · rw [mem_singleton.mp hs]
      refine segmentBits_of_openDir hseg ?_
      show Covers ((t₁.deletedFile.or _).getD []) _
      rw [hstale', Option.or_none, hflush.file]
      exact hflush.buffer.covers

theorem BitsOk.insertMany (h : BitsOk t) (hstale : NoStaleBitmap t) (hroom : RoomFor t rows) :
    BitsOk (exec (insertMany rows) t).2 := by
  rw [Table.insertMany, exec_get_bind]
  split
  · exact h
  · split
    · exact h
    · have happend := h.appended hroom
      have hstale' : NoStaleBitmap (exec (onColumns (zipWith appendColumn t.schema
        (columnBatches t.wbColumns.length rows))) t).2 := hstale
      rw [exec_bind]
      generalize exec (onColumns _) t = r at happend hstale' ⊢
      rcases r with ⟨e | ⟨⟩, _⟩
      · exact happend
      · rw [exec_bind_pure_snd, maybeFlush, exec_get_bind]
        split
        · exact happend.flushWriteBuffer hstale'
        · exact happend

/-- The first segments are replaced by one whose bitmap covers it, or they stay. -/
theorem BitsOk.swapSegments (h : BitsOk t) {n base count : Nat} {sd : SegmentDir}
    (hids : IdsOk (exec (swapSegments n sd base count) t).2)
    (hcov : Covers (sd.deleted.getD []) count) :
    BitsOk (exec (swapSegments n sd base count) t).2 := by
  have hnamed : Named t.segments (t.nextSegmentId + 1) :=
    ⟨h.named.1, fun s hs => Nat.lt_succ_of_lt (h.named.2 s hs)⟩
  revert hids
  rw [exec_swapSegments]
  split
  · exact fun hids => { h with ids := hids, named := hnamed }
  · cases hseg : Segment.openDir sd t.schema ⟨t.nextSegmentId, base, count⟩ with
    | error e => exact fun hids => { h with ids := hids, named := hnamed }
    | ok seg =>
      refine fun hids => ⟨hids, h.named.replace (congrArg SegmentMeta.id (openDir_eq_ok hseg).1) n,
        fun s hs => ?_, h.buffer, h.file, h.sized⟩
      rcases mem_cons.mp hs with rfl | hs
      · exact segmentBits_of_openDir hseg hcov
      · exact h.segments s (mem_of_mem_drop hs)

theorem BitsOk.vacuumTable : Maintains BitsOk vacuumTable := by
  intro t h
  have hids := maintains_vacuumTable t h.ids
  obtain hrun | ⟨first, rest, sd, count, -, hclear, -, hrun⟩ := vacuumTable_cases t
  · rw [hrun]
    exact h
  · rw [hrun] at hids ⊢
    exact h.swapSegments hids (.inl (by rw [hclear]; rfl))

theorem BitsOk.mergeSegments (k : Nat) : Maintains BitsOk (mergeSegments k) := by
  intro t h
  have hids := maintains_mergeSegments k t h.ids
  obtain hrun | ⟨first, rest, sd, -, hbits, hrun⟩ := mergeSegments_cases k t
  · rw [hrun]
    exact h
  · rw [hrun] at hids ⊢
    refine h.swapSegments hids ?_
    rw [hbits, mergeDeletedBitmaps, totalRows, map_map]
    split
    · exact .inl rfl
    · right
      rw [length_setAll, length_replicate, Bitmap.bytesFor]
      show (map (fun s : Segment => s.info.rowCount) _).sum ≤ _
      omega

/-! ## Opening -/

/-- The first column is read from the file of the first column, with no more rows. -/
theorem BufferBits.openColumns (h : BufferBits cols bm) {cols' : List ColumnFile}
    (hopen : (withFiles schema cols).mapM (fun (c, file) => openColumn c file) = .ok cols') :
    BufferBits cols' bm ∧ ∀ c ∈ schema.head?, 0 < c.spec.capacity := by
  have hall := forall₂_of_mapM hopen
  cases schema with
  | nil =>
    cases hall
    exact ⟨nofun, nofun⟩
  | cons spec schema =>
    cases cols with
    | nil =>
      obtain ⟨c', rest, hone, -⟩ := forall₂_cons_left_iff.mp hall
      cases (openColumn_eq_ok hone).1
    | cons c cols =>
      obtain ⟨c', rest, hone, -, rfl⟩ := forall₂_cons_left_iff.mp hall
      obtain ⟨hfile, hspec⟩ := openColumn_eq_ok hone
      obtain ⟨_, dur, hst, hcov⟩ := h c rfl
      obtain ⟨_, hfile₁, -, hst₁⟩ := openFile_stores hst
      cases hfile.symm.trans hfile₁
      have hcap := hst₁.cap_pos
      rw [capacity, hspec] at hcap
      refine ⟨?_, ?_⟩
      · rintro _ ⟨⟩
        exact ⟨dur, dur, hst₁, hcov.mono hst.prefix.length_le⟩
      · rintro _ ⟨⟩
        exact hcap

theorem BitsOk.reopened (h : BitsOk t) {t' : Table}
    (hgapless : Contiguous 0 (t.segments.map Segment.info)) (hopen : openDir t.dir = .ok t') :
    BitsOk t' := by
  have hd := openDir_opens hopen
  have hinfos := hd.infos
  have hnext := hd.next
  have hsegs := forall₂_of_mapM hd.segments
  have hcols := hd.columns
  have hdel := hd.deleted
  have hfile := hd.file
  rw [h.ids.dir_manifest] at hinfos hnext hsegs
  rw [dir_of_settled h.ids.settled] at hcols hdel hfile
  rw [h.file] at hdel
  obtain ⟨hbuffer, hsized⟩ := h.buffer.openColumns hcols
  refine ⟨h.ids.reopened hgapless hopen, ?_, fun s' hs' => ?_, hdel ▸ hbuffer, ?_, hsized⟩
  · rw [hnext]
    exact (named_of_nodup h.named.1).congr hinfos
  · obtain ⟨_, hm, hone⟩ := forall₂_mem_right hsegs hs'
    obtain ⟨s, hmem, rfl⟩ := mem_map.mp hm
    obtain ⟨_, hlook, hseg⟩ := openSegment_eq_ok hone
    rw [dir_of_settled h.ids.settled, lookup_segments h.named.1 hmem] at hlook
    cases hlook
    refine segmentBits_of_openDir hseg ?_
    show Covers (s.deletedFile.getD []) _
    rw [(h.segments s hmem).2]
    exact (h.segments s hmem).1
  · rw [hfile, hdel, h.file]

/-! ## Runs -/

/-- No row is appended beyond the bits, no bitmap is left where a segment is put, and a table is
reopened only while its segments leave no gap. -/
def Action.KeepsBits (t : Table) : Action → Prop
  | .insert rows => NoStaleBitmap t ∧ RoomFor t rows
  | .update old rows => NoStaleBitmap t ∧ RoomFor (t.marked old) rows
  | .sealBuffer => NoStaleBitmap t
  | .merge _ => NoStaleBitmap t
  | .reopen => Contiguous 0 (t.segments.map Segment.info)
  | .truncate _ => False
  | _ => True

instance (t : Table) : Decidable (NoStaleBitmap t) :=
  inferInstanceAs (Decidable (_ = none))

instance (t : Table) (rows : List Row) : Decidable (RoomFor t rows) :=
  inferInstanceAs (Decidable (_ ∨ _))

instance (t : Table) : DecidablePred (Action.KeepsBits t)
  | .insert _ | .update _ _ => inferInstanceAs (Decidable (_ ∧ _))
  | .sealBuffer | .merge _ => inferInstanceAs (Decidable (NoStaleBitmap t))
  | .reopen => inferInstanceAs (Decidable (Contiguous _ _))
  | .truncate _ => isFalse id
  | .delete _ | .flush | .vacuum => isTrue trivial

theorem BitsOk.step (h : BitsOk t) {a : Action} (ha : a.KeepsBits t) : BitsOk (a.step t) := by
  cases a with
  | insert rows => exact h.insertMany ha.1 ha.2
  | update old rows =>
    have hstale : NoStaleBitmap (t.marked old) := by
      obtain ⟨_, _, hmarked, -⟩ := marked_eq t old
      rw [hmarked]
      exact ha.1
    show BitsOk (exec (updateRows old rows) t).2
    rw [snd_updateRows]
    exact (h.marked old).insertMany hstale ha.2
  | delete gids =>
    show BitsOk (exec (markDeleted gids) t).2
    rw [exec_markDeleted]
    exact h.marked gids
  | flush => exact h.flush
  | truncate rows => exact ha.elim
  | sealBuffer => exact h.flushWriteBuffer ha
  | vacuum => exact BitsOk.vacuumTable t h
  | merge threshold =>
    exact maybeMergeTable_keeps h (h.flushWriteBuffer ha) BitsOk.vacuumTable
      (BitsOk.mergeSegments threshold)
  | reopen =>
    show BitsOk ((openDir t.dir).toOption.getD t)
    cases hopen : openDir t.dir with
    | error e => exact h
    | ok t' => exact h.reopened ha hopen

theorem create_bitsOk {threshold : Nat} {t : Table}
    (hcap : ∀ c ∈ schema, 0 < c.spec.capacity) (hcreate : create schema threshold = .ok t) :
    BitsOk t := by
  have hids := create_idsOk hcreate
  obtain ⟨-, _, hcols, rfl⟩ := create_eq_ok hcreate
  have hsized : ∀ c ∈ schema.head?, 0 < c.spec.capacity := fun c hc => hcap c (mem_of_mem_head? hc)
  exact ⟨hids, ⟨nodup_nil, nofun⟩, nofun, bufferBits_of_create hsized hcols, rfl, hsized⟩

/-- **Dead rows are counted in bounds** in every state that a run reaches from a new table. -/
theorem dead_rows_counted {schema : Schema} {threshold : Nat} {t₀ : Table} {as : List Action}
    (hcreate : create schema threshold = .ok t₀) (hcap : ∀ c ∈ schema, 0 < c.spec.capacity)
    (has : Run.Along step Action.KeepsBits t₀ as) :
    ∀ t ∈ Run.states step t₀ as, DeadCounted t := by
  intro t ht
  have h : BitsOk t := Run.Along.invariant (fun t a h ha => h.step ha)
    (create_bitsOk hcap hcreate) has t ht
  exact h.deadCounted

/-- A row is deleted, its segment is sealed and reopened, and two more rows follow. -/
theorem dead_rows_counted_oneColumn : ∃ t₀ t, create oneColumn 65536 = .ok t₀ ∧
    t = Run.final step t₀ [.insert [[.int32 1], [.int32 2]], .delete [1], .sealBuffer,
      .reopen, .insert [[.int32 3], [.int32 4]]] ∧ DeadCounted t := by
  have hcreate : create oneColumn 65536 = .ok _ := rfl
  exact ⟨_, _, hcreate, rfl,
    dead_rows_counted hcreate (by decide) (by decide) _ (Run.final_mem_states _ _)⟩

/-- After one deletion the bitmap has one byte; with nine rows the next count reads beyond it. -/
theorem dead_rows_out_of_bounds : ∃ t₀, create oneColumn 65536 = .ok t₀ ∧
    (Run.final step t₀ [.insert [[.int32 0]], .delete [0],
      .insert ((range 8).map fun i => [.int32 i])]).deadRowStats = .error .outOfBounds :=
  ⟨_, rfl, rfl⟩

end NyxDb.Table
