import NyxDb.Maintenance.Concurrent

/-!
# No change is lost

A merge or a vacuum copies the bits and the positions it saw when it started.  A deletion in one of
these segments before the job commits is undone by the commit, and a second job that commits in
between is overwritten.  Runs in which neither happens lose nothing: in every state a scan shows the
rows that were inserted and not deleted, in their order (`run_exposes`).

* `Orderly` collects what the statements need of the table.
* `JobOk` says that a job that has not committed still sees the first segments of the table.
-/

namespace NyxDb.Table

open ColumnFile (Stores)
open List TableScan Segment

variable {t t' : Table} {segs segs' : List (List Row)} {wb : List Row} {dur : Nat}

/-! ## Deletions -/

variable {k : Nat} {s : Segment} {p : Part} {job : Job} {tmp : Option SegmentDir} {rows : List Row}

/-- The parts of a table with marks: only bits have changed. -/
theorem parts_marked (t : Table) (gids : List Nat) (hp : (parts t)[k]? = some p) :
    ∃ p', (parts (t.marked gids))[k]? = some p' ∧ p'.baseRowId = p.baseRowId ∧
      p'.localRowCount = p.localRowCount := by
  rcases part_cases hp with ⟨s, hs, rfl⟩ | ⟨rfl, rfl⟩
  · have hs' : (t.marked gids).segments[k]? = some (s.marked (t.idsOfSegment gids k)) := by
      simp [marked, hs]
    refine ⟨_, part_of_segment hs', ?_, ?_⟩
    · exact congrArg SegmentMeta.baseRowId (info_marked _ _)
    · exact congrArg SegmentMeta.rowCount (info_marked _ _)
  · have hp' := part_of_buffer (t.marked gids)
    rw [length_segments_marked] at hp'
    refine ⟨_, hp', (sameIds_marked t gids).base, ?_⟩
    show (t.marked gids).wbRowCount = t.wbRowCount
    unfold wbRowCount
    rw [wbColumns_marked]

theorem IdsOk.partRows_marked (h : IdsOk t) (hsize : t.wbBaseRowId ≤ 2 ^ 64) (gids : List Nat)
    {p' : Part} (hp : (parts t)[k]? = some p)
    (hp' : (parts (t.marked gids))[k]? = some p') (hbase : p'.baseRowId = p.baseRowId)
    (hcount : p'.localRowCount = p.localRowCount) (rows : List Row) :
    partRows p' rows = (partRows p rows).filter fun x => !decide (x.1 ∈ gids) := by
  have hrow : rowAt p' rows = rowAt p rows := by
    funext l
    rw [rowAt, rowAt, hbase]
  unfold partRows liveIds
  rw [hcount, filter_map, filter_filter]
  congr 1
  apply filter_congr
  intro l hl
  have hbit : Bitmap.test p'.deleted l =
      (Bitmap.test p.deleted l || decide (p.baseRowId + l ∈ gids)) := by
    rw [← rowBit_part hp', rowBit_marked, rowBit_part hp,
      h.ranged.hitsAt_eq hsize gids hp (mem_range.mp hl)]
  rw [hbit, Bool.not_or, Bool.and_comm]
  rfl

/-- **A scan after a deletion** shows the rows without those that have one of the ids. -/
theorem Holds.scan_marked (h : Holds t segs wb dur) (hids : IdsOk t)
    (hsize : t.wbBaseRowId ≤ 2 ^ 64) (gids : List Nat) :
    TableScan.scan (t.marked gids) =
      .ok ((liveRows t segs wb).filter fun x => !decide (x.1 ∈ gids)) := by
  rw [(h.marked gids).scan]
  unfold liveRows
  rw [filter_flatten]
  congr 2
  apply ext_getElem?
  intro k
  rw [getElem?_map, getElem?_zipWith, getElem?_zipWith]
  cases hp : (TableScan.parts t)[k]? with
  | none =>
    have hnone : (TableScan.parts (t.marked gids))[k]? = none := by
      rw [getElem?_eq_none_iff] at hp ⊢
      have hlen := (h.marked gids).parts.length_eq
      rw [h.parts.length_eq] at hp
      omega
    rw [hnone]
    rfl
  | some p =>
    obtain ⟨_, hp', hbase, hcount⟩ := parts_marked t gids hp
    rw [hp']
    cases (segs ++ [wb])[k]? with
    | none => rfl
    | some rows => exact congrArg some (hids.partRows_marked hsize gids hp hp' hbase hcount rows)

/-! ## Tables in order -/

/-- What the statements and the jobs need of a table, beside its rows. -/
structure Orderly (t : Table) (segs : List (List Row)) (wb : List Row) : Prop where
  holds : Holds t segs wb 0
  ids : IdsOk t
  fresh : Fresh t wb
  size : t.rowCount ≤ 2 ^ 64
  below : ∀ s ∈ t.segments, s.info.id < t.nextSegmentId
  unused : ∀ x ∈ t.unusedSegments, x.1 < t.nextSegmentId

/-- No directory is in the way of the next segment. -/
theorem Orderly.lookup_next (h : Orderly t segs wb) :
    t.unusedSegments.lookup t.nextSegmentId = none := by
  rw [lookup_eq_none_iff]
  intro x hx
  have hlt := h.unused x hx
  simp only [bne_iff_ne, ne_eq]
  omega

/-- The statement may add segments, but it leaves those that are there in their place. -/
structure Extends (t : Table) (segs : List (List Row)) (t' : Table) (segs' : List (List Row)) :
    Prop where
  schema : t'.schema = t.schema
  segs : segs <+: segs'
  infos : t.segments.map info <+: t'.segments.map info

/-- The bits of the segments are what they were. -/
def KeepsBits (t : Table) (segs : List (List Row)) (t' : Table) : Prop :=
  ∀ j < segs.length, ∀ l, rowBit t' j l = rowBit t j l

theorem Orderly.delete (h : Orderly t segs wb) (gids : List Nat) :
    Orderly (t.marked gids) segs wb ∧ Extends t segs (t.marked gids) segs := by
  have hinfos := (sameIds_marked t gids).infos
  have hcount : (t.marked gids).rowCount = t.rowCount := by
    rw [(h.holds.marked gids).rowCount, h.holds.rowCount, (sameIds_marked t gids).base]
  have hview : idView (t.marked gids) = idView t := by
    have hpres := preserves_markDeleted gids t
    rwa [exec_markDeleted] at hpres
  obtain ⟨_, _, hmarked, -⟩ := marked_eq t gids
  refine ⟨⟨h.holds.marked gids, h.ids.congr hview, h.fresh.marked h.holds gids, hcount ▸ h.size,
    fun s hs => ?_, by rw [hmarked]; exact h.unused⟩,
    schema_marked t gids, prefix_refl segs, hinfos ▸ prefix_refl _⟩
  have hmem := mem_map_of_mem (f := info) hs
  rw [hinfos] at hmem
  obtain ⟨s₀, hs₀, heq⟩ := mem_map.mp hmem
  rw [hmarked, ← heq]
  exact h.below s₀ hs₀

/-- **A seal** keeps the rows. -/
theorem Orderly.seal (h : Orderly t segs wb) (hne : wb ≠ []) :
    ∃ t', exec flushWriteBuffer t = (.ok (), t') ∧ Orderly t' (segs ++ [wb]) [] ∧
      Extends t segs t' (segs ++ [wb]) ∧ KeepsBits t segs t' ∧
      ledger t' (segs ++ [wb]) [] = ledger t segs wb := by
  obtain ⟨cols, seg, _, hexec, hinfo, hbits, hcount, hheld⟩ := h.holds.exec_seal hne
  have hseg : seg.deleted = t.wbDeleted := by
    rw [hbits, sealedDir, h.lookup_next, ← h.holds.file, Option.bind_none, Option.or_none]
  have hok := maintains_flushWriteBuffer t h.ids
  rw [hexec] at hok
  refine ⟨_, hexec, ⟨hheld, hok, fresh_of_deleted_nil rfl [], ?_, ?_, ?_⟩, ⟨rfl, ?_, ?_⟩, ?_, ?_⟩
  · rw [hheld.rowCount]
    show t.wbBaseRowId + (t.withColumns cols).wbRowCount + 0 ≤ _
    rw [hcount, ← h.holds.wbRowCount]
    exact h.size
  · exact forall_mem_concat (fun s hs => Nat.lt_succ_of_lt (h.below s hs))
      (hinfo ▸ Nat.lt_succ_self _)
  · intro x hx
    exact Nat.lt_succ_of_lt (h.unused x (mem_of_mem_filter hx))
  · exact prefix_append _ _
  · show t.segments.map info <+: (t.segments ++ [seg]).map info
    rw [map_append]
    exact prefix_append _ _
  · intro j hj l
    exact rowBit_concat (t := t) rfl (h.holds.length_segments ▸ hj) l
  · rw [h.holds.ledger_sealed, hseg, ← h.holds.ledger_buffer]

/-- **An insertion** adds its rows; it may end with a seal. -/
theorem Orderly.insert (h : Orderly t segs wb)
    (hrows : ∀ row ∈ rows, Conforms t.schema row) (hsize : t.rowCount + rows.length ≤ 2 ^ 64) :
    ∃ t' segs' wb' n, exec (insertMany rows) t = (.ok n, t') ∧ Orderly t' segs' wb' ∧
      Extends t segs t' segs' ∧ KeepsBits t segs t' ∧
      ledger t' segs' wb' = (ledger t segs wb).add rows := by
  by_cases hne : rows = []
  · subst hne
    exact ⟨t, segs, wb, 0, rfl, h, ⟨rfl, prefix_refl _, prefix_refl _⟩,
      fun _ _ _ => rfl, (Ledger.add_nil _).symm⟩
  obtain ⟨cols, hheld, hexec⟩ := h.holds.exec_insertMany hne hrows
  have hadd := h.holds.ledger_append h.fresh cols rows
  -- the table with the new rows in its write buffer
  have h₁ : Orderly (t.withColumns cols) segs (wb ++ rows) := by
    refine ⟨hheld, { h.ids with }, h.fresh.append cols rows, ?_,
      h.below, h.unused⟩
    rw [hheld.rowCount, length_append]
    show t.wbBaseRowId + _ ≤ _
    rw [h.holds.rowCount] at hsize
    omega
  by_cases hfull : (t.withColumns cols).flushThreshold ≤ (t.withColumns cols).wbRowCount
  · obtain ⟨t', hseal, hord, hext, hbits, hledger⟩ := h₁.seal (by simp [hne])
    have hmaybe : exec maybeFlush (t.withColumns cols) = (.ok (), t') := by
      rw [maybeFlush, exec_get_bind, if_pos hfull]
      exact hseal
    refine ⟨t', _, _, rows.length, ?_, hord, { hext with }, ?_, ?_⟩
    · rw [hexec, exec_bind_ok hmaybe]
      rfl
    · intro j hj l
      rw [hbits j hj l, sameBits_withColumns t cols]
    · rw [hledger, hadd]
  · have hmaybe : exec maybeFlush (t.withColumns cols) = (.ok (), t.withColumns cols) := by
      rw [maybeFlush, exec_get_bind, if_neg hfull]
      rfl
    refine ⟨t.withColumns cols, segs, wb ++ rows, rows.length, ?_, h₁,
      ⟨rfl, prefix_refl _, prefix_refl _⟩,
      fun j _ l => sameBits_withColumns t cols j l, hadd⟩
    rw [hexec, exec_bind_ok hmaybe]
    rfl

/-! ## Jobs -/

/-- The rows that the new segment of a job has. -/
def Job.newRows (job : Job) (segs : List (List Row)) : List Row :=
  (job.rewriting.rows job.snaps (segs.take job.snaps.length)).flatten

/-- A job that has not committed: the segments it has seen are still the first ones of the table,
with the same bits, and its temporary directory has the columns that it has written. -/
structure JobOk (t : Table) (segs : List (List Row)) (tmp : Option SegmentDir) (job : Job) :
    Prop where
  snapshot : Snapshot t segs job.snaps
  infos : job.snaps.map info <+: t.segments.map info
  base : ∃ first rest, job.snaps = first :: rest ∧ job.baseRowId = first.info.baseRowId
  readable : job.rewriting.Readable job.snaps
  length : job.columns.length ≤ t.schema.length
  columns : ∀ i c col, t.schema[i]? = some c → job.columns[i]? = some col → col.spec = c.spec ∧
    Stores col (columnOf i (job.newRows segs)) (columnOf i (job.newRows segs))
  dir : ∃ d, tmp = some d ∧ d.cols = job.columns.map (fun c => some c.file) ++
      replicate (t.schema.length - job.columns.length) none ∧
    (job.phase = .copied → job.columns.length = t.schema.length ∧
      d.deleted = job.rewriting.deletedFile job.snaps)

theorem Snapshot.extend {snaps : List Segment} (h : Snapshot t segs snaps)
    (hext : Extends t segs t' segs')
    (hbits : ∀ j s, snaps[j]? = some s →
      ∀ l < s.info.rowCount, rowBit t' j l = rowBit t j l) :
    Snapshot t' segs' snaps ∧ segs'.take snaps.length = segs.take snaps.length := by
  have htake : segs'.take snaps.length = segs.take snaps.length := by
    obtain ⟨-, rfl⟩ := hext.segs
    exact take_append_of_le_length h.le
  refine ⟨⟨?_, fun j s hs l hl => ?_⟩, htake⟩
  · rw [htake, hext.schema]
    exact h.held
  · rw [hbits j s hs l hl]
    exact h.bits j s hs l hl

section

variable (h : JobOk t segs tmp job)
include h

/-- A statement that leaves the bits of the snapshot alone does not disturb the job. -/
theorem JobOk.extend (hext : Extends t segs t' segs')
    (hbits : ∀ j s, job.snaps[j]? = some s →
      ∀ l < s.info.rowCount, rowBit t' j l = rowBit t j l) : JobOk t' segs' tmp job := by
  obtain ⟨hsnap, htake⟩ := h.snapshot.extend hext hbits
  have hrows : job.newRows segs' = job.newRows segs := by
    rw [Job.newRows, Job.newRows, htake]
  refine ⟨hsnap, h.infos.trans hext.infos, h.base, h.readable, ?_, ?_, ?_⟩ <;> rw [hext.schema]
  · exact h.length
  · rw [hrows]
    exact h.columns
  · exact h.dir

/-- The base of a segment of the snapshot is that of the part of the table. -/
theorem JobOk.part {j : Nat} (hs : job.snaps[j]? = some s) :
    ∃ p, (parts t)[j]? = some p ∧ p.baseRowId = s.info.baseRowId ∧
      p.localRowCount = s.info.rowCount := by
  obtain ⟨_, hmore⟩ := h.infos
  have hj : j < job.snaps.length := lt_of_getElem? hs
  have hinfo : (t.segments.map info)[j]? = some s.info := by
    rw [← hmore, getElem?_append_left (by simpa using hj), getElem?_map, hs]
    rfl
  rw [getElem?_map] at hinfo
  obtain ⟨s', hs', heq⟩ := Option.map_eq_some_iff.mp hinfo
  exact ⟨segmentPart s', part_of_segment hs',
    congrArg SegmentMeta.baseRowId heq, congrArg SegmentMeta.rowCount heq⟩

/-- **A job writes its next column.** -/
theorem JobOk.mergedColumn (hheld : Holds t segs wb dur) {c : Column}
    (hc : t.schema[job.columns.length]? = some c) :
    ∃ col, mergedColumn job.rewriting.copy job.snaps c job.columns.length = .ok col ∧
      col.spec = c.spec ∧
      Stores col (columnOf job.columns.length (job.newRows segs))
        (columnOf job.columns.length (job.newRows segs)) :=
  mergedColumn_holds (h.snapshot.copies hheld.conforms_segments h.readable)
    (fun _ hc => hheld.buffer.cap_pos hc) hc

/-- A job that has written everything: its directory opens as a segment that can take the place of
those it has seen. -/
theorem JobOk.rewrites (hheld : Holds t segs wb dur)
    (hphase : job.phase = .copied) {d : SegmentDir} (hd : tmp = some d) :
    ∃ seg, Rewrites t segs job.snaps.length d
      ⟨t.nextSegmentId, job.baseRowId, job.rewriting.count job.snaps⟩ seg (job.newRows segs) := by
  obtain ⟨d', hd', hcols, hdone⟩ := h.dir
  obtain rfl : d = d' := Option.some.inj (hd.symm.trans hd')
  obtain ⟨hlen, hdel⟩ := hdone hphase
  rw [hlen, Nat.sub_self, replicate_zero, append_nil] at hcols
  have heach : Written t.schema job.columns (job.newRows segs) :=
    ⟨hlen, fun {i c col} hc hcol => h.columns i c col hc hcol⟩
  obtain ⟨seg, hr⟩ := h.snapshot.rewrites hheld.conforms_segments heach t.nextSegmentId
    job.baseRowId
  refine ⟨seg, ?_⟩
  obtain ⟨_, _⟩ := d
  cases hcols
  cases hdel
  exact hr

/-- The ranges of ids stay in order. -/
theorem JobOk.ranges (hids : IdsOk t) :
    RangesBelow (⟨t.nextSegmentId, job.baseRowId, job.rewriting.count job.snaps⟩ ::
      (t.segments.drop job.snaps.length).map info) t.wbBaseRowId := by
  obtain ⟨first, rest, hsnaps, hbase⟩ := h.base
  obtain ⟨more, hmore⟩ := h.infos
  have hdrop : (t.segments.drop job.snaps.length).map info = more := by
    rw [map_drop, ← hmore, ← length_map (f := info), drop_left]
  have hranges := hids.ranges
  rw [← hmore, hsnaps] at hranges
  have hcount : job.rewriting.count job.snaps ≤
      totalRows (first.info :: rest.map info) := by
    rw [hsnaps, totalRows, ← map_cons, map_map]
    cases job.rewriting with
    | vacuum => exact Nat.sub_le _ _
    | merge => exact Nat.le_refl _
  rw [hdrop, hbase]
  exact hranges.replace _ hcount

end

/-- **A commit** keeps what is left of the rows. -/
theorem Orderly.replaced (h : Orderly t segs wb) {n base count : Nat} {d : SegmentDir}
    {seg : Segment} {new : List Row}
    (hr : Rewrites t segs n d ⟨t.nextSegmentId, base, count⟩ seg new)
    (hranges : RangesBelow (⟨t.nextSegmentId, base, count⟩ ::
      (t.segments.drop n).map info) t.wbBaseRowId) :
    Orderly (t.withReplaced n seg) (new :: segs.drop n) wb ∧
      (ledger (t.withReplaced n seg) (new :: segs.drop n) wb).values =
        (ledger t segs wb).values := by
  have hheld := h.holds.replacedBy hr.holds hr.conforms n
  refine ⟨⟨{ hheld with }, ⟨?_, rfl, h.ids.settled⟩, ?_, h.size, ?_, ?_⟩,
    hr.values_replacedBy h.holds⟩
  · show RangesBelow ((seg :: t.segments.drop n).map info) t.wbBaseRowId
    rw [map_cons, hr.info_eq]
    exact hranges
  · intro l hl
    have hold := h.fresh l hl
    rw [rowBit_buffer] at hold ⊢
    exact hold
  · exact forall_mem_cons.2 ⟨hr.info_eq ▸ Nat.lt_succ_self _,
      fun s hs => Nat.lt_succ_of_lt (h.below s (mem_of_mem_drop hs))⟩
  · intro x hx
    rcases mem_append.mp hx with hx | hx
    · obtain ⟨s, hs, rfl⟩ := mem_map.mp hx
      exact Nat.lt_succ_of_lt (h.below s (mem_of_mem_take hs))
    · exact Nat.lt_succ_of_lt (h.unused x (mem_of_mem_filter hx))

/-! ## The invariant -/

namespace SharedTable

variable {s : SharedTable}

/-- A job that has not committed. -/
def isOpen (job : Job) : Bool :=
  job.phase != .committed

/-- No change has been lost, and the job that has not committed can go on. -/
structure NothingLost (s : SharedTable) (segs : List (List Row)) (wb : List Row) : Prop where
  inBounds : s.overrun = false
  orderly : Orderly s.table segs wb
  values : (ledger s.table segs wb).values = s.history.values
  jobs : ∀ job ∈ s.jobs, isOpen job = true → JobOk s.table segs (s.tmp job.rewriting) job
  single : s.jobs.countP isOpen ≤ 1

theorem NothingLost.exposed (h : NothingLost s segs wb) :
    s.table.exposed = .ok s.history.values := by
  rw [h.orderly.holds.exposed, h.values]

variable {j : Nat} {job : Job}

/-- Beside one open job, no other job is open. -/
theorem others_committed {jobs : List Job} (hsingle : jobs.countP isOpen ≤ 1)
    (hj : jobs[j]? = some job) (hopen : isOpen job = true) :
    ∀ other ∈ jobs.take j ++ jobs.drop (j + 1), isOpen other = false := by
  obtain ⟨_, rfl⟩ := List.getElem?_eq_some_iff.mp hj
  have hsplit : jobs = jobs.take j ++ jobs[j] :: jobs.drop (j + 1) := by
    rw [getElem_cons_drop, take_append_drop]
  have hcount : (jobs.take j ++ jobs.drop (j + 1)).countP isOpen = 0 := by
    rw [hsplit, countP_append, countP_cons_of_pos hopen] at hsingle
    rw [countP_append]
    omega
  intro other hother
  simpa using countP_eq_zero.mp hcount other hother

/-- All jobs but one have committed, so that only this one matters, with its directory. -/
theorem nothingLost_of_jobs {A B : List Job} {d : Option SegmentDir}
    (hothers : ∀ other ∈ A ++ B, isOpen other = false) (hbounds : s.overrun = false)
    (horderly : Orderly s.table segs wb)
    (hvalues : (ledger s.table segs wb).values = s.history.values)
    (hjobs : s.jobs = A ++ job :: B) (hok : isOpen job = true → JobOk s.table segs d job) :
    NothingLost (s.setTmp job.rewriting d) segs wb := by
  have hzero : (A ++ B).countP isOpen = 0 := by
    rw [countP_eq_zero]
    intro other hother
    rw [hothers other hother]
    exact Bool.false_ne_true
  have hsingle : s.jobs.countP isOpen ≤ 1 := by
    rw [countP_append] at hzero
    rw [hjobs, countP_append, countP_cons]
    split <;> omega
  have hmine : ∀ job' ∈ s.jobs, isOpen job' = true → job' = job := by
    intro job' hmem hopen
    rw [hjobs, mem_append, mem_cons] at hmem
    by_contra hne
    have hother : job' ∈ A ++ B := by
      rw [mem_append]
      exact hmem.imp id fun h => h.resolve_left hne
    rw [hothers job' hother] at hopen
    cases hopen
  unfold setTmp
  split
  all_goals
    next hw =>
      refine ⟨hbounds, horderly, hvalues, fun job' hmem hopen => ?_, hsingle⟩
      obtain rfl := hmine job' hmem hopen
      rw [hw]
      exact hok hopen

/-! ## Statements -/

section

variable (h : NothingLost s segs wb)
include h

/-- A statement changes the table and the history; the jobs see the same segments as before. -/
theorem NothingLost.extend {wb' : List Row} {history : Ledger Row}
    (horderly : Orderly t' segs' wb') (hext : Extends s.table segs t' segs')
    (hbits : ∀ job ∈ s.jobs, isOpen job = true → ∀ j x,
      job.snaps[j]? = some x → ∀ l < x.info.rowCount, rowBit t' j l = rowBit s.table j l)
    (hvalues : (ledger t' segs' wb').values = history.values) :
    NothingLost { s with table := t', history := history } segs' wb' :=
  { h with
    orderly := horderly
    values := hvalues
    jobs := fun job hjob hopen => (h.jobs job hjob hopen).extend hext (hbits job hjob hopen) }

theorem NothingLost.keepsBits (hbits : KeepsBits s.table segs t') :
    ∀ job ∈ s.jobs, isOpen job = true → ∀ j x,
      job.snaps[j]? = some x → ∀ l < x.info.rowCount, rowBit t' j l = rowBit s.table j l := by
  intro job hjob hopen j x hx l _
  have hlt := lt_of_getElem? hx
  exact hbits j (Nat.lt_of_lt_of_le hlt (h.jobs job hjob hopen).snapshot.le) l

/-- The rows fit the table and its row ids. -/
def Insertable (t : Table) (rows : List Row) : Prop :=
  (∀ row ∈ rows, Conforms t.schema row) ∧ t.rowCount + rows.length ≤ 2 ^ 64

instance (t : Table) (rows : List Row) : Decidable (Insertable t rows) :=
  inferInstanceAs (Decidable (_ ∧ _))

theorem NothingLost.insert (hfits : Insertable s.table rows) : ∃ segs' wb',
    NothingLost (s.insert rows) segs' wb' := by
  obtain ⟨_, segs', wb', n, hexec, horderly, hext, hbits, hledger⟩ :=
    h.orderly.insert hfits.1 hfits.2
  refine ⟨segs', wb', ?_⟩
  unfold SharedTable.insert
  rw [hexec]
  apply h.extend horderly hext (h.keepsBits hbits)
  rw [hledger, Ledger.values_add, Ledger.values_add, h.values]

/-- No row with one of the ids is in a segment that an open job has seen. -/
def Untouched (s : SharedTable) (gids : List Nat) : Prop :=
  ∀ job ∈ s.jobs, isOpen job = true → ∀ x ∈ job.snaps, ∀ gid ∈ gids,
    ¬ (x.info.baseRowId ≤ gid ∧ gid < x.info.baseRowId + x.info.rowCount)

instance (s : SharedTable) (gids : List Nat) : Decidable (Untouched s gids) :=
  inferInstanceAs (Decidable (∀ job ∈ s.jobs, _))

theorem NothingLost.delete {gids : List Nat} (huntouched : Untouched s gids) :
    NothingLost (s.delete gids) segs wb := by
  obtain ⟨horderly, hext⟩ := h.orderly.delete gids
  have hsize := Nat.le_trans (Nat.le_add_right _ _) h.orderly.size
  have hscan := h.orderly.holds.scan_marked h.orderly.ids hsize gids
  unfold SharedTable.delete
  rw [exec_markDeleted]
  apply h.extend horderly hext
  · intro job hjob hopen j x hx l hl
    obtain ⟨p, hp, _, _⟩ := (h.jobs job hjob hopen).part hx
    have hnot : p.baseRowId + l ∉ gids := by
      intro hmem
      apply huntouched job hjob hopen x (mem_of_getElem? hx) _ hmem
      omega
    rw [rowBit_marked, h.orderly.ids.ranged.hitsAt_eq hsize gids hp (by omega),
      decide_eq_false hnot,
      Bool.or_false]
  · -- both sides are the rows of the scan without those that have one of the ids
    have hold := h.orderly.holds.exposed
    have hnew := horderly.holds.exposed
    rw [Table.exposed, h.orderly.holds.scan] at hold
    rw [Table.exposed, hscan] at hnew
    have hvalues : s.history.values = (liveRows s.table segs wb).map Prod.snd := by
      rw [← h.values]
      exact (Except.ok.inj hold).symm
    have hnamed : named s.table gids =
        (liveRows s.table segs wb).map fun x => decide (x.1 ∈ gids) := by
      unfold named
      rw [h.orderly.holds.scan]
    rw [hnamed, Ledger.values_strike hvalues]
    exact (Except.ok.inj hnew).symm

end

theorem update_eq (s : SharedTable) (gids : List Nat) (rows : List Row) :
    s.update gids rows = (s.delete gids).insert rows := by
  unfold SharedTable.update SharedTable.insert SharedTable.delete updateRows
  rw [exec_bind_ok (exec_markDeleted gids s.table), exec_get_bind,
    exec_bind, exec_markDeleted]
  rcases exec (insertMany rows) (s.table.marked gids) with ⟨_ | _, -⟩ <;> rfl

section

variable (h : NothingLost s segs wb)
include h

theorem NothingLost.update {gids : List Nat} (huntouched : Untouched s gids)
    (hfits : Insertable s.table rows) :
    ∃ segs' wb', NothingLost (s.update gids rows) segs' wb' := by
  rw [update_eq]
  have hdel := h.delete huntouched
  apply hdel.insert
  have htable : (s.delete gids).table = s.table.marked gids := by
    show (exec (markDeleted gids) s.table).2 = _
    rw [exec_markDeleted]
  unfold Insertable
  rw [htable, schema_marked, (h.orderly.holds.marked gids).rowCount,
    (sameIds_marked s.table gids).base, ← h.orderly.holds.rowCount]
  exact hfits

theorem NothingLost.sealBuffer : ∃ segs' wb', NothingLost (s.step .sealBuffer) segs' wb' := by
  by_cases hne : wb = []
  · subst hne
    refine ⟨segs, [], ?_⟩
    show NothingLost { s with table := (exec flushWriteBuffer s.table).2 } segs []
    rw [h.orderly.holds.exec_seal_nil]
    exact h
  · obtain ⟨_, hexec, horderly, hext, hbits, hledger⟩ := h.orderly.seal hne
    refine ⟨segs ++ [wb], [], ?_⟩
    show NothingLost { s with table := (exec flushWriteBuffer s.table).2 } _ _
    rw [hexec]
    apply h.extend horderly hext (h.keepsBits hbits)
    rw [hledger, h.values]

/-! ## Steps of jobs -/

/-- A job begins with the segments as they are. -/
theorem NothingLost.begin (hidle : ∀ job ∈ s.jobs, isOpen job = false) {n : Nat}
    (hn : n ≤ s.table.segments.length) {first : Segment} {rest : List Segment}
    (hsnaps : s.table.segments.take n = first :: rest) {w : Rewriting}
    (hread : w.Readable (first :: rest)) :
    NothingLost (s.begin w (first :: rest) first.info.baseRowId) segs wb := by
  have hjob : JobOk s.table segs (some ⟨s.table.schema.map fun _ => none, none⟩)
      ⟨w, first :: rest, first.info.baseRowId, [], .copying⟩ := by
    have hsnap := h.orderly.holds.snapshot hn
    rw [hsnaps] at hsnap
    refine ⟨hsnap, ?_, ⟨first, rest, rfl, rfl⟩, hread, Nat.zero_le _, ?_, _, rfl, map_const', nofun⟩
    · rw [← hsnaps, map_take]
      exact take_prefix _ _
    · intro i c col _ hcol
      cases hcol
  refine nothingLost_of_jobs (s := { s with jobs := s.jobs ++ [_] })
    (B := []) ?_ h.inBounds h.orderly h.values rfl fun _ => hjob
  rw [append_nil]
  exact hidle

/-- When a job may be started: no other job is open, and what it reads is there. -/
def MayStart (s : SharedTable) (kind : JobKind) : Prop :=
  (∀ job ∈ s.jobs, isOpen job = false) ∧
    match kind with
    | .vacuum => SegmentsCovered s.table
    | .merge threshold => s.table.segments.length < threshold ∨ 2 ≤ threshold

instance (s : SharedTable) : DecidablePred (MayStart s) := fun kind => by
  cases kind <;> dsimp only [MayStart] <;> infer_instance

theorem NothingLost.start {kind : JobKind} (hmay : MayStart s kind) :
    NothingLost (s.start kind) segs wb := by
  obtain ⟨hidle, hmay⟩ := hmay
  cases kind with
  | vacuum =>
    have hdead : (s.table.segments.mapM fun x => deadCount x.deleted x.info.rowCount) =
        .ok (s.table.segments.map fun x =>
          (range x.info.rowCount).countP fun l => Bitmap.test x.deleted l) :=
      mapM_eq_ok fun x hx => deadCount_of_covered (hmay x hx)
    unfold SharedTable.start
    dsimp only
    split
    · exact h
    · next first rest hsegs =>
      rw [hdead]
      dsimp only
      split
      · exact h
      · rw [hsegs]
        apply h.begin hidle (Nat.le_refl _)
        · rw [take_length, hsegs]
        · rw [← hsegs]
          exact hmay
  | merge threshold =>
    unfold SharedTable.start
    dsimp only
    split
    · exact h
    · next hlen =>
      split
      · next hnil =>
        have hzero := congrArg length hnil
        rw [length_take_of_le (by omega), length_nil] at hzero
        omega
      · next first rest hsnaps => exact h.begin hidle (by omega) hsnaps trivial

end

theorem jobs_set {jobs : List Job} (hj : jobs[j]? = some job) (job' : Job) :
    jobs.set j job' = jobs.take j ++ job' :: jobs.drop (j + 1) := by
  rw [set_eq_take_append_cons_drop, if_pos (lt_of_getElem? hj)]

theorem NothingLost.putJob (h : NothingLost s segs wb) {job' : Job} (hj : s.jobs[j]? = some job)
    (hopen : isOpen job = true) {d : Option SegmentDir} (hjob : JobOk s.table segs d job') :
    NothingLost (s.putJob j job' d) segs wb :=
  nothingLost_of_jobs (others_committed h.single hj hopen) h.inBounds h.orderly h.values
    (jobs_set hj job') fun _ => hjob

theorem isOpen_of_phase {phase : Phase} (h : job.phase = phase) (hne : phase ≠ .committed) :
    isOpen job = true := by
  unfold isOpen
  rw [h]
  exact bne_iff_ne.mpr hne

/-- The directories of the segments that an open job has seen are there. -/
theorem hasDir_of_jobOk {tmp : Option SegmentDir} (h : JobOk t segs tmp job) :
    (job.snaps.all fun x => hasDir t x.info.id) = true := by
  rw [all_eq_true]
  intro x hx
  obtain ⟨_, hx', heq⟩ := mem_map.mp (h.infos.subset (mem_map_of_mem (f := info) hx))
  unfold hasDir
  rw [Bool.or_eq_true, contains_iff_mem, ← heq]
  exact Or.inl (mem_map_of_mem (f := fun x => x.info.id) hx')

section

variable (h : NothingLost s segs wb)
include h

/-- **A job copies** its next column or its bitmap. -/
theorem NothingLost.copy (j : Nat) : NothingLost (s.copy j) segs wb := by
  unfold SharedTable.copy
  split
  · exact h
  · next job hj =>
    split
    · next hphase =>
      have hopen := isOpen_of_phase hphase (by decide)
      have hok := h.jobs job (mem_of_getElem? hj) hopen
      obtain ⟨d, hd, hcols, -⟩ := hok.dir
      rw [hd]
      dsimp only
      unfold copyNext
      split
      · next hnone =>
        -- all columns are written
        apply h.putJob hj hopen
        have hlen : job.columns.length = s.table.schema.length :=
          Nat.le_antisymm hok.length (getElem?_eq_none_iff.mp hnone)
        exact { hok with dir := ⟨_, rfl, hcols, fun _ => ⟨hlen, rfl⟩⟩ }
      · next c hc =>
        have hlt := lt_of_getElem? hc
        obtain ⟨_, hmerged, hspec, hst⟩ := hok.mergedColumn h.orderly.holds hc
        rw [if_pos (hasDir_of_jobOk hok), hmerged]
        apply h.putJob hj hopen
        refine ⟨hok.snapshot, hok.infos, hok.base, hok.readable, ?_, ?_, _, rfl, ?_, ?_⟩
        · rw [length_append]
          exact hlt
        · intro i c' col' hc' hcol'
          rcases Nat.lt_trichotomy i job.columns.length with hi | rfl | hi
          · rw [getElem?_append_left hi] at hcol'
            exact hok.columns i c' col' hc' hcol'
          · rw [getElem?_concat_length] at hcol'
            cases hcol'
            obtain rfl : c = c' := Option.some.inj (hc.symm.trans hc')
            exact ⟨hspec, hst⟩
          · rw [getElem?_eq_none (by simp; omega)] at hcol'
            cases hcol'
        · -- the new column takes the first free place
          rw [hcols, set_append_right _ _ (by simp), length_map, Nat.sub_self,
            map_append, length_append, length_singleton,
            show s.table.schema.length - job.columns.length =
              s.table.schema.length - (job.columns.length + 1) + 1 by omega,
            replicate_succ, set_cons_zero, append_assoc]
          rfl
        · intro hcopied
          rw [hphase] at hcopied
          cases hcopied
    · exact h

/-- **A job commits.** -/
theorem NothingLost.commit (j : Nat) : ∃ segs', NothingLost (s.commit j) segs' wb := by
  unfold SharedTable.commit
  split
  · exact ⟨segs, h⟩
  · next job hj =>
    split
    · next hphase =>
      have hopen := isOpen_of_phase hphase (by decide)
      have hok := h.jobs job (mem_of_getElem? hj) hopen
      obtain ⟨d, hd, -⟩ := hok.dir
      obtain ⟨seg, hr⟩ := hok.rewrites h.orderly.holds hphase hd
      obtain ⟨horderly, hvalues⟩ := h.orderly.replaced hr (hok.ranges h.orderly.ids)
      have htaken : s.table.nextIdTaken = false := by
        unfold nextIdTaken
        rw [h.orderly.lookup_next]
      have hexec : exec (replaceSegments job.snaps.length d job.baseRowId
          (job.rewriting.count job.snaps)) s.table =
          (.ok (), s.table.withReplaced job.snaps.length seg) := by
        rw [exec_replaceSegments, htaken, if_neg Bool.false_ne_true, hr.opens]
      refine ⟨job.newRows segs :: segs.drop job.snaps.length, ?_⟩
      rw [hd]
      dsimp only
      unfold SharedTable.replace
      rw [hexec]
      refine nothingLost_of_jobs (others_committed h.single hj hopen) ?_ horderly
        (hvalues.trans h.values) (jobs_set hj _) fun hopen' => ?_
      · have hle := hok.snapshot.le
        rw [← h.orderly.holds.length_segments] at hle
        rw [h.inBounds, decide_eq_false (by omega)]
        rfl
      · cases hopen'
    · exact ⟨segs, h⟩

/-- **A job removes the old directories.** -/
theorem NothingLost.cleanup (j : Nat) : NothingLost (s.cleanup j) segs wb := by
  unfold SharedTable.cleanup
  split
  · exact h
  · next job hj =>
    split
    · rw [exec_removeSegmentDirs]
      refine ⟨h.inBounds, ?_, h.values, fun job' hmem hopen => ?_, ?_⟩
      · have ho := h.orderly
        exact { ho with
          holds := { ho.holds with }
          ids := { ho.ids with }
          unused := fun x hx => ho.unused x (mem_of_mem_filter hx) }
      · have hold := h.jobs job' (mem_of_mem_eraseIdx hmem) hopen
        exact hold.extend ⟨rfl, prefix_refl _, prefix_refl _⟩ fun _ _ _ _ _ => rfl
      · exact Nat.le_trans (eraseIdx_sublist _ _).countP_le h.single
    · exact h

/-! ## Runs -/

/-- Which events a run may have: rows that fit, deletions and updates of rows that no open job has
seen in a segment, and no second job before the first one has committed. -/
def ConflictFree (s : SharedTable) : TableEvent → Prop
  | .insert rows => Insertable s.table rows
  | .delete gids => Untouched s gids
  | .update gids rows => Untouched s gids ∧ Insertable s.table rows
  | .start kind => MayStart s kind
  | .sealBuffer => True
  | .copy _ => True
  | .commit _ => True
  | .cleanup _ => True

instance (s : SharedTable) : DecidablePred (ConflictFree s) := fun e => by
  cases e <;> dsimp only [ConflictFree] <;> infer_instance

theorem NothingLost.step {e : TableEvent} (hfree : ConflictFree s e) :
    ∃ segs' wb', NothingLost (s.step e) segs' wb' := by
  cases e with
  | insert rows => exact h.insert hfree
  | delete gids => exact ⟨segs, wb, h.delete hfree⟩
  | update gids rows => exact h.update hfree.1 hfree.2
  | sealBuffer => exact h.sealBuffer
  | start kind => exact ⟨segs, wb, h.start hfree⟩
  | copy j => exact ⟨segs, wb, h.copy j⟩
  | commit j => exact (h.commit j).imp fun _ h' => ⟨wb, h'⟩
  | cleanup j => exact ⟨segs, wb, h.cleanup j⟩

end

/-- **No change is lost.**  In every state of a run without conflicts from a table in order, a
scan shows the rows that were inserted and have not been deleted, each once and in their order. -/
theorem run_exposes {t : Table} {rows : List Row} (ht : Orderly t segs wb)
    (hrows : t.exposed = .ok rows) {events : List TableEvent}
    (hrun : Run.Along step ConflictFree (ofTable t rows) events) :
    ∀ s ∈ Run.states step (ofTable t rows) events,
      s.overrun = false ∧ s.table.exposed = .ok s.history.values := by
  have hinit : NothingLost (ofTable t rows) segs wb := by
    refine ⟨rfl, ht, ?_, nofun, Nat.zero_le 1⟩
    rw [ht.holds.exposed] at hrows
    show (ledger t segs wb).values = Ledger.values (rows.map fun row => (row, false))
    rw [Ledger.values_clear]
    exact Except.ok.inj hrows
  have hgood := hrun.invariant (I := fun s => ∃ segs wb, NothingLost s segs wb)
    (fun s e ⟨segs, wb, h⟩ hfree => h.step hfree) ⟨segs, wb, hinit⟩
  intro s hs
  obtain ⟨_, _, h⟩ := hgood s hs
  exact ⟨h.inBounds, h.exposed⟩

/-- A vacuum beside insertions, a seal and deletions elsewhere. -/
def vacuumRun : List TableEvent :=
  [.insert [[.int32 1], [.int32 2], [.int32 3]], .delete [0], .sealBuffer, .start .vacuum, .copy 0,
    .insert [[.int32 4]], .delete [3], .copy 0, .sealBuffer, .insert [[.int32 5]], .commit 0,
    .delete [1], .cleanup 0]

theorem run_exposes_vacuumRun : ∃ t₀, create oneColumn 65536 = .ok t₀ ∧
      (Run.final step (ofTable t₀ []) vacuumRun).table.exposed = .ok [[.int32 2], [.int32 5]] := by
  have hcreate : create oneColumn 65536 = .ok _ := rfl
  refine ⟨_, hcreate, ?_⟩
  have hheld := create_stored (by decide) hcreate
  have horderly := Orderly.mk hheld (create_idsOk hcreate) (fresh_of_deleted_nil rfl [])
    (by decide) (by decide) (by decide)
  have hall : ∀ s ∈ Run.states step (ofTable _ []) vacuumRun, _ :=
    run_exposes horderly rfl (by decide +kernel)
  exact (hall _ (Run.final_mem_states _ vacuumRun)).2

/-- A vacuum has copied the row 2 when the row is deleted; its commit brings the row back.  A merge
of the first segment is under way when a vacuum puts one segment in the place of both; its commit
replaces that one, and the row 6 is lost. -/
theorem commit_undoes_deletion_and_vacuum : ∃ t₀, create oneColumn 65536 = .ok t₀ ∧
      (∃ s, s = Run.final step (ofTable t₀ []) [.insert [[.int32 1], [.int32 2]], .delete [0],
          .sealBuffer, .start .vacuum, .copy 0, .delete [1], .copy 0, .commit 0, .cleanup 0] ∧
        s.history = [([.int32 1], true), ([.int32 2], true)] ∧
        s.table.exposed = .ok [[.int32 2]]) ∧
      ∃ s, s = Run.final step (ofTable t₀ []) [.insert (intRows [1, 2, 3, 4, 5]), .delete [0],
          .sealBuffer, .insert (intRows [6]), .sealBuffer, .start (.merge 2), .copy 0, .copy 0,
          .start .vacuum, .copy 1, .copy 1, .commit 1, .commit 0, .cleanup 1, .cleanup 0] ∧
        s.history = ([.int32 1], true) :: (intRows [2, 3, 4, 5, 6]).map (·, false) ∧
        s.table.exposed = .ok (intRows [2, 3, 4, 5]) := by
  exact ⟨_, rfl, ⟨_, rfl, rfl, rfl⟩, _, rfl, rfl, rfl⟩

end SharedTable
end NyxDb.Table
